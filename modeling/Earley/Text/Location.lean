/-
  `Location` — a point in a text, as an offset and as a line and a column.

  The offset counts characters from zero; lines and columns count from one, as people do. Only a
  line feed ends a line, so a carriage return is an ordinary character of its line. Every location
  is reached from `Location.origin` by walking over the characters before it (`advanceAll`), and
  `locate` and `endOf` are that walk over a part of the text and over the whole of it.
-/
namespace Earley

/-- A point in a text: how many characters precede it, and its line and column, both from one. -/
structure Location where
  /-- How many characters stand before this point. -/
  offset : Nat
  /-- The line, counted from one. -/
  line : Nat
  /-- The column in its line, counted from one. -/
  column : Nat
  deriving DecidableEq

namespace Location

/-- The start of every text. -/
def origin : Location := ⟨0, 1, 1⟩

instance : Inhabited Location := ⟨origin⟩

/-- The location behind `c`, for a `c` that stands at `loc`. -/
def advance (loc : Location) (c : Char) : Location :=
  if c = '\n' then ⟨loc.offset + 1, loc.line + 1, 1⟩
  else ⟨loc.offset + 1, loc.line, loc.column + 1⟩

/-- The location behind all of `cs`, for a `cs` that starts at `loc`. -/
def advanceAll (loc : Location) (cs : List Char) : Location :=
  cs.foldl advance loc

/-- The location of the character at `offset`; an offset past the end gives the end. -/
def locate (text : List Char) (offset : Nat) : Location :=
  origin.advanceAll (text.take offset)

/-- The location right behind the last character. -/
def endOf (text : List Char) : Location :=
  origin.advanceAll text

/-- The form in which messages name a location, `line:column`. -/
def display (loc : Location) : String :=
  toString loc.line ++ ":" ++ toString loc.column

instance : ToString Location := ⟨display⟩

/-! ### Walking over text -/

@[simp]
theorem advanceAll_nil (loc : Location) : loc.advanceAll [] = loc := rfl

@[simp]
theorem advanceAll_cons (loc : Location) (c : Char) (cs : List Char) :
    loc.advanceAll (c :: cs) = (loc.advance c).advanceAll cs := rfl

theorem advanceAll_append (loc : Location) (cs ds : List Char) :
    loc.advanceAll (cs ++ ds) = (loc.advanceAll cs).advanceAll ds := by
  simp [advanceAll]

@[simp]
theorem offset_advance (loc : Location) (c : Char) :
    (loc.advance c).offset = loc.offset + 1 := by
  unfold advance
  split <;> rfl

theorem offset_advanceAll (loc : Location) (cs : List Char) :
    (loc.advanceAll cs).offset = loc.offset + cs.length := by
  induction cs generalizing loc with
  | nil => rfl
  | cons c cs ih => rw [advanceAll_cons, ih, offset_advance, List.length_cons]; omega

end Location

end Earley
