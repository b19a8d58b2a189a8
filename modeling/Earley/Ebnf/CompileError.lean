/-
  `CompileError` — why a grammar text gives no grammar.

  There are four kinds of fault, and every error names a place in the grammar text.
-/
import Earley.Ebnf.Token

namespace Earley

/-- The kinds of fault in a grammar text. -/
inductive Fault
  /-- The text does not split into tokens, or these do not form declarations. -/
  | syntaxError
  /-- A body refers to a name that is not declared. -/
  | undefinedSymbol
  /-- A declaration repeats an alternative of an earlier one of the same name. -/
  | duplicateRule
  /-- The start symbol is not declared. -/
  | missingStart
  deriving DecidableEq

/-- The word by which messages name a kind of fault. -/
def Fault.name : Fault → String
  | .syntaxError => "SyntaxError"
  | .undefinedSymbol => "UndefinedSymbol"
  | .duplicateRule => "DuplicateRule"
  | .missingStart => "MissingStart"

/-- A fault in a grammar text, and where. -/
structure CompileError where
  fault : Fault
  location : Location
  message : String
  deriving DecidableEq

namespace CompileError

/-- The kind, the place and the wording together. -/
def display (e : CompileError) : String :=
  e.fault.name ++ " at " ++ e.location.display ++ ": " ++ e.message

/-- A misspelled token is a fault of syntax. -/
def ofTokenError (e : TokenError) : CompileError :=
  ⟨.syntaxError, e.location, e.message⟩

end CompileError

end Earley
