/-
  `Declaration` — the rules of a grammar text, as they are declared.

  A declaration gives a name one or more alternatives. An alternative is a sequence of atoms:
  references to rules, literals, ranges, and bracketed alternatives, which may be left out
  (`[ ]`), repeated (`{ }`) or only grouped (`( )`). Brackets nest to any depth.

  References carry their place for the sake of messages. `Atom.alike` and its companions compare
  what is declared and disregard the places.
-/
import Earley.Ebnf.Token

namespace Earley

/-- The three kinds of brackets around alternatives: they may be left out, they may be repeated
any number of times, or they are only grouped. -/
inductive Bracket
  | optional
  | repetition
  | group
  deriving DecidableEq

namespace Bracket

/-- The token that closes a bracket. -/
def closer : Bracket → Token
  | optional => .closeBracket
  | repetition => .closeBrace
  | group => .closeParen

end Bracket

/-- One item in an alternative. -/
inductive Atom
  /-- The rule called `name`, referred to at `location`. -/
  | reference (name : String) (location : Location)
  | literal (text : String)
  | range (lo hi : Char)
  /-- Alternatives between brackets. -/
  | nested (bracket : Bracket) (body : List (List Atom))

/-- The alternatives that a grammar text gives to `name`, which stands at `location`. -/
structure Declaration where
  name : String
  location : Location
  body : List (List Atom)

/-! ### References -/

/-- A name in the body of a declaration, and where it stands. -/
structure Reference where
  name : String
  location : Location
  deriving DecidableEq

mutual

/-- The references in an atom, in the order of the text, listed in front of `after`. -/
def Atom.references (after : List Reference) : Atom → List Reference
  | .reference name location => ⟨name, location⟩ :: after
  | .literal _ => after
  | .range _ _ => after
  | .nested _ body => Atom.referencesAmong after body

/-- The references in a sequence of atoms, listed in front of `after`. -/
def Atom.referencesIn (after : List Reference) : List Atom → List Reference
  | [] => after
  | atom :: atoms => atom.references (Atom.referencesIn after atoms)

/-- The references in a list of alternatives, listed in front of `after`. -/
def Atom.referencesAmong (after : List Reference) : List (List Atom) → List Reference
  | [] => after
  | alternative :: body => Atom.referencesIn (Atom.referencesAmong after body) alternative

end

/-- The references in the body of a declaration, in the order of the text. -/
def Declaration.references (d : Declaration) : List Reference :=
  Atom.referencesAmong [] d.body

/-! ### Comparison up to places -/

mutual

/-- Tells whether two atoms differ at most in the places of their references. -/
def Atom.alike : Atom → Atom → Bool
  | .reference name _, .reference name' _ => name == name'
  | .literal text, .literal text' => text == text'
  | .range lo hi, .range lo' hi' => lo == lo' && hi == hi'
  | .nested bracket body, .nested bracket' body' =>
    bracket == bracket' && Atom.alikeAmong body body'
  | _, _ => false

/-- Tells whether two sequences of atoms differ at most in places. -/
def Atom.alikeIn : List Atom → List Atom → Bool
  | [], [] => true
  | atom :: atoms, atom' :: atoms' => atom.alike atom' && Atom.alikeIn atoms atoms'
  | _, _ => false

/-- Tells whether two lists of alternatives differ at most in places. -/
def Atom.alikeAmong : List (List Atom) → List (List Atom) → Bool
  | [], [] => true
  | alternative :: body, alternative' :: body' =>
    Atom.alikeIn alternative alternative' && Atom.alikeAmong body body'
  | _, _ => false

end

end Earley
