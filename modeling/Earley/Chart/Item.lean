/-
  `Item` — a rule matched up to a point.

  An item says how far a rule has been matched (the symbols before the dot) and at which position
  of the input the match began. Items are ordered by rule, then dot, then start.
-/
import Earley.Grammar.Basic

namespace Earley

/-- A partly matched rule: its number, how many of its symbols are matched, and where the match
began. -/
structure Item where
  rule : Nat
  dot : Nat
  start : Nat
  deriving DecidableEq, Hashable, Ord

namespace Item

/-- The item for a rule of which nothing is matched at `start`. -/
def predict (rule start : Nat) : Item := ⟨rule, 0, start⟩

/-- The item with one more symbol matched. -/
def advance (item : Item) : Item := { item with dot := item.dot + 1 }

/-- Tells whether the whole rule is matched. -/
def isComplete (g : Grammar) (item : Item) : Bool :=
  decide ((g.rule item.rule).body.size ≤ item.dot)

/-- The symbol behind the dot, unless the rule is matched. -/
def nextSymbol? (g : Grammar) (item : Item) : Option Symbol :=
  (g.rule item.rule).body[item.dot]?

/-- The head of the rule. -/
def head (g : Grammar) (item : Item) : Nat := (g.rule item.rule).head

/-- The form in which listings print an item, such as `(0) Sum -> Sum · "+" Num`. There is none
if the dot is past the end of the rule. -/
def display? (g : Grammar) (item : Item) : Option String :=
  let names := g.bodyNames item.rule
  if item.dot ≤ names.length then
    some ("(" ++ toString item.start ++ ") " ++ g.name (item.head g) ++ " -> "
      ++ " ".intercalate (names.take item.dot) ++ " · " ++ " ".intercalate (names.drop item.dot))
  else none

end Item

end Earley
