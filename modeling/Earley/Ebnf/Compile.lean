/-
  `Compile` — a grammar out of its text.

  The text is read into declarations, those of one name are merged, and the result is flattened
  into the steps of a grammar builder. In between it is checked that every name in a body is
  declared and that the start symbol is. Of several faults the earliest stage reports its own:
  syntax, repeated alternatives, undefined names, then the start symbol.

  An error of the builder would be reported at the end of the text.
-/
import Earley.Ebnf.Flatten
import Earley.Ebnf.Merge
import Earley.Ebnf.Reader

namespace Earley

namespace Declaration

/-- The first reference, in the order of the merged declarations, to a name without one. -/
def undefined? (merged : List Declaration) : Option Reference :=
  let declared := Std.HashSet.ofList (merged.map name)
  (merged.flatMap references).find? fun reference => !declared.contains reference.name

/-- Declarations with one for each name, checked against each other and the start symbol;
`endOfText` is where a missing start symbol is reported. -/
def check (merged : List Declaration) (start : String) (endOfText : Location) :
    Except CompileError Unit :=
  match undefined? merged with
  | some reference =>
    .error ⟨.undefinedSymbol, reference.location,
      "Symbol '" ++ reference.name ++ "' is not defined"⟩
  | none =>
    if merged.any fun d => d.name == start then .ok ()
    else .error ⟨.missingStart, endOfText, "Start symbol '" ++ start ++ "' is not defined"⟩

end Declaration

/-- An error of the builder, as a fault in the text that ends at `endOfText`. -/
def CompileError.ofGrammarError (e : GrammarError) (endOfText : Location) : CompileError :=
  let fault : Fault := match e with
    | .missingSymbol _ | .noRules _ => .undefinedSymbol
    | .duplicateSymbol _ | .duplicateRule _ => .duplicateRule
    | .notNonterminal _ | .emptyTerminal _ => .syntaxError
  ⟨fault, endOfText, e.message⟩

/-- The grammar that merged declarations give. -/
def Declaration.compile (merged : List Declaration) (start : String) (endOfText : Location) :
    Except CompileError Grammar := do
  check merged start endOfText
  match Grammar.build (allSteps merged) start with
  | .error e => throw (.ofGrammarError e endOfText)
  | .ok g => return g

/-- The grammar of the text `text`, for the start symbol called `start`. -/
def Grammar.compile (text : List Char) (start : String) : Except CompileError Grammar := do
  let declarations ← Declaration.ofChars text
  let merged ← Declaration.merge declarations
  Declaration.compile merged start (.endOf text)

end Earley
