/-
  `Symbol` — terminals, symbols and rules.

  A terminal matches a run of input characters: a literal matches its own text and a range one
  character between its ends. A symbol of a rule is a terminal or the number of a non-terminal,
  and a rule replaces its head by its body; an empty body derives the empty text.

  A terminal is vacuous if no input, or only the empty one, could match it. No rule of a grammar
  holds a vacuous terminal, so every match of a terminal consumes at least one character.
-/
import Earley.Text.Quoted

namespace Earley

/-- What matches a run of input characters: one exact text, or any single character of a range. -/
inductive Terminal
  | literal (text : List Char)
  | range (lo hi : Char)
  deriving DecidableEq

namespace Terminal

/-- Characters count by their code points. -/
instance : Hashable Terminal where
  hash
    | literal text => mixHash 0 (hash (String.ofList text))
    | range lo hi => mixHash 1 (mixHash (hash lo.val) (hash hi.val))

/-- Tells whether `input` holds the characters `cs` from `pos` on. -/
def literalAt (input : Array Char) : List Char → Nat → Bool
  | [], _ => true
  | c :: cs, pos => input[pos]? == some c && literalAt input cs (pos + 1)

/-- The number of characters that a terminal consumes at `pos`, if it matches there. -/
def matchAt (t : Terminal) (input : Array Char) (pos : Nat) : Option Nat :=
  match t with
  | literal text =>
    if literalAt input text pos then some text.length else none
  | range lo hi =>
    match input[pos]? with
    | some c => if lo ≤ c ∧ c ≤ hi then some 1 else none
    | none => none

/-- Tells whether a terminal is useless in a rule: an empty literal, or a range without
characters. -/
def isVacuous : Terminal → Bool
  | literal text => text.isEmpty
  | range lo hi => decide (hi < lo)

/-- The form of a terminal, where `visible` tells which characters may stand as they are. -/
def displayBy (visible : Char → Bool) : Terminal → String
  | literal text => quoteTextBy visible (String.ofList text)
  | range lo hi => quoteCharBy visible lo ++ "..." ++ quoteCharBy visible hi

/-- The form in which rules and messages name a terminal. -/
def display : Terminal → String := displayBy isVisible

end Terminal

/-- A symbol in the body of a rule: a terminal, or a non-terminal by its number. -/
inductive Symbol
  | nonterm (id : Nat)
  | terminal (t : Terminal)
  deriving DecidableEq, Hashable

/-- The rule that replaces the non-terminal `head` by `body`. -/
structure Rule where
  head : Nat
  body : Array Symbol
  deriving DecidableEq, Hashable

instance : Inhabited Rule := ⟨⟨0, #[]⟩⟩

end Earley
