/-
  `Grammar` — a context-free grammar, ready for recognition.

  Non-terminals and rules are numbered in the order in which they were declared. The order of the
  rules of one non-terminal is their priority: where a text has several derivations, the rules
  declared first are preferred.

  Beside its rules a grammar keeps what recognition asks for all the time: the number of each
  name, the rules of each non-terminal (`alternatives`), and which non-terminals derive the empty
  text (`nullable`). Grammars come from `Builder.finish`, which fills these tables.
-/
import Earley.Grammar.Symbol
import Earley.Text.Blank
import Std.Data.HashMap

namespace Earley

/-- A context-free grammar with the tables that recognition uses. -/
structure Grammar where
  /-- The non-terminal that a whole input has to match. -/
  start : Nat
  /-- The names of the non-terminals, by number. -/
  nonterms : Array String
  /-- The number of each name. -/
  ids : Std.HashMap String Nat
  /-- The rules, in the order of their declaration. -/
  rules : Array Rule
  /-- The numbers of the rules of each non-terminal, ascending. -/
  alternatives : Array (List Nat)
  /-- Whether each non-terminal derives the empty text. -/
  nullable : Array Bool

namespace Grammar

/-- The name of a non-terminal. -/
def name (g : Grammar) (id : Nat) : String := g.nonterms.getD id ""

/-- The name of the start symbol. -/
def startName (g : Grammar) : String := g.name g.start

/-- The number of the non-terminal called `name`, if there is one. -/
def nonterm? (g : Grammar) (name : String) : Option Nat := g.ids[name]?

/-- The rule with a given number. -/
def rule (g : Grammar) (index : Nat) : Rule := g.rules.getD index default

/-- The rules of a non-terminal, in the order of their declaration. -/
def alternativesOf (g : Grammar) (id : Nat) : List Nat := g.alternatives.getD id []

/-- Tells whether a non-terminal derives the empty text. -/
def isNullable (g : Grammar) (id : Nat) : Bool := g.nullable.getD id false

/-- The form in which rules name a symbol. -/
def symbolName (g : Grammar) : Symbol → String
  | .nonterm id => g.name id
  | .terminal t => t.display

/-- The names of the symbols in the body of a rule. -/
def bodyNames (g : Grammar) (index : Nat) : List String :=
  (g.rule index).body.toList.map g.symbolName

/-- A head and the names of a body as one line, such as `Sum -> Sum "+" Num`. -/
def ruleLine (head : String) (names : List String) : String :=
  trimEnd (head ++ " -> " ++ " ".intercalate names)

/-- The form in which trees and listings print a rule. -/
def ruleText (g : Grammar) (index : Nat) : String :=
  ruleLine (g.name (g.rule index).head) (g.bodyNames index)

/-- All rules, one a line. -/
def display (g : Grammar) : String :=
  String.join ((List.range g.rules.size).map fun index => g.ruleText index ++ "\n")

end Grammar

end Earley
