/-
  `Nullable` — which non-terminals derive the empty text.

  A head derives the empty text if all symbols in the body of one of its rules do; a terminal
  never does. The least table closed under this is reached in rounds: each round goes through the
  rules in order and marks the heads whose bodies are marked by then. Every round but the last
  marks a new non-terminal, so one round more than there are non-terminals is enough.
-/
import Earley.Grammar.Symbol

namespace Earley

namespace Nullable

/-- Tells whether a symbol derives the empty text as far as `marks` knows. -/
def marked (marks : Array Bool) : Symbol → Bool
  | .nonterm id => marks.getD id false
  | .terminal _ => false

/-- Marks the head of a rule if it is not marked and all symbols of the body are; the flag tells
whether any mark was new so far. -/
def visit (state : Array Bool × Bool) (rule : Rule) : Array Bool × Bool :=
  let (marks, changed) := state
  if marks.getD rule.head false then (marks, changed)
  else if rule.body.all (marked marks) then (marks.setIfInBounds rule.head true, true)
  else (marks, changed)

/-- One round over all rules: the new marks, and whether there are any. -/
def round (rules : Array Rule) (marks : Array Bool) : Array Bool × Bool :=
  rules.foldl visit (marks, false)

/-- At most `rounds` rounds, until one of them marks nothing. -/
def close (rules : Array Rule) : Nat → Array Bool → Array Bool
  | 0, marks => marks
  | rounds + 1, marks =>
    match round rules marks with
    | (marks, true) => close rules rounds marks
    | (marks, false) => marks

/-- The non-terminals, of `count` ones, that derive the empty text by `rules`. -/
def table (count : Nat) (rules : Array Rule) : Array Bool :=
  close rules (count + 1) (Array.replicate count false)

end Nullable

end Earley
