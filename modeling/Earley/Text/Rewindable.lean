/-
  `Rewindable` — a reader of characters that can step back.

  Characters are taken from a source one at a time, and only when a call needs them; those taken
  are kept in a buffer until `ignore` or `extract` drop what has been read. The position counts
  within the buffer: `-1` before the first character of it, the size of the buffer once the source
  has run dry and the last character has been passed. The current character stands at the
  position, and the view is everything from the start of the buffer up to and including it.

  Calls that look ahead or fail to accept take characters from the source, but leave the position as
  it was. With it the current character and the view stay, unless the position is one that was asked
  for at the end of the buffer and the source goes on there: then the first character that is taken
  becomes the current one.
-/
import Earley.Text.Blank
import Earley.Text.Identifier

namespace Earley

/-- A reader over the characters of `source`, which it takes into `buffer` as they are needed. -/
structure Rewindable where
  /-- The characters not taken yet. -/
  source : List Char
  /-- The characters taken and not dropped. -/
  buffer : Array Char
  /-- The place in the buffer, from `-1` to its size. -/
  pos : Int

namespace Rewindable

/-- A reader that stands before the first character of `cs`. -/
def ofChars (cs : List Char) : Rewindable := ⟨cs, #[], -1⟩

/-- The character at the position, if there is one. -/
def curr (r : Rewindable) : Option Char :=
  if r.pos < 0 then none else r.buffer[r.pos.toNat]?

/-- The character behind the position, if the buffer has it. -/
def following? (r : Rewindable) : Option Char :=
  r.buffer[(r.pos + 1).toNat]?

/-- How many characters of the buffer have been read, the current one included. -/
def viewed (r : Rewindable) : Nat :=
  min (r.pos + 1).toNat r.buffer.size

/-- What has been read since the last drop, the current character included. -/
def view (r : Rewindable) : List Char :=
  r.buffer.toList.take r.viewed

/-- Takes characters from the source until the buffer has one at `pos` or the source is dry. -/
def fill (pos : Int) : Array Char → List Char → Array Char × List Char
  | buffer, [] => (buffer, [])
  | buffer, c :: source =>
    if pos < buffer.size then (buffer, c :: source) else fill pos (buffer.push c) source

/-- Moves on by one character and gives it; at the end there is none. -/
def next (r : Rewindable) : Option Char × Rewindable :=
  let filled := fill (r.pos + 1) r.buffer r.source
  let moved : Rewindable := ⟨filled.2, filled.1, min (r.pos + 1) filled.1.size⟩
  (moved.curr, moved)

/-- Moves back by one character and gives the one before; never before the start of the buffer. -/
def prev (r : Rewindable) : Option Char × Rewindable :=
  let moved := if r.pos < 0 then r else { r with pos := r.pos - 1 }
  (moved.curr, moved)

/-- Moves to `pos`, forwards or backwards, if the buffer reaches that far. -/
def setPos (r : Rewindable) (pos : Int) : Bool × Rewindable :=
  if pos < -1 ∨ r.buffer.size < pos then (false, r) else (true, { r with pos := pos })

/-- Gives the next character and stays where it is. -/
def peek (r : Rewindable) : Option Char × Rewindable :=
  let filled := fill (r.pos + 1) r.buffer r.source
  let looked : Rewindable := ⟨filled.2, filled.1, r.pos⟩
  (looked.following?, looked)

/-- Drops what has been read and stands before the rest. -/
def ignore (r : Rewindable) : Rewindable :=
  ⟨r.source, r.buffer.extract r.viewed, -1⟩

/-- Gives what has been read and drops it. -/
def extract (r : Rewindable) : List Char × Rewindable :=
  (r.view, r.ignore)

/-! ### Accepting by a condition

The calls that accept differ only in the characters that they accept. -/

/-- Moves on if the next character meets `p`, and gives it; else stays. -/
def acceptIf (p : Char → Bool) (r : Rewindable) : Option Char × Rewindable :=
  match r.peek with
  | (some c, looked) =>
    if p c then (some c, { looked with pos := looked.pos + 1 }) else (none, looked)
  | (none, looked) => (none, looked)

/-- How many characters are still in front of the position. -/
def ahead (r : Rewindable) : Nat :=
  (r.buffer.size + r.source.length - r.pos).toNat

theorem size_fill (pos : Int) (buffer : Array Char) (source : List Char) :
    buffer.size ≤ (fill pos buffer source).1.size ∧
      (fill pos buffer source).1.size + (fill pos buffer source).2.length =
        buffer.size + source.length := by
  induction source generalizing buffer with
  | nil => exact ⟨Nat.le_refl _, rfl⟩
  | cons c source ih =>
    unfold fill
    split
    · exact ⟨Nat.le_refl _, rfl⟩
    · obtain ⟨hle, htotal⟩ := ih (buffer.push c)
      rw [Array.size_push] at hle htotal
      refine ⟨by omega, ?_⟩
      rw [htotal, List.length_cons]
      omega

/-- Tells that `r'` is what a reader `r` may become: it may have taken characters from its source,
and it stands where it stood or at a character further on. -/
structure Onward (r r' : Rewindable) : Prop where
  size_le : r.buffer.size ≤ r'.buffer.size
  total_eq : r'.buffer.size + r'.source.length = r.buffer.size + r.source.length
  pos : r'.pos = r.pos ∨ r.pos < r'.pos ∧ r'.pos < r'.buffer.size

/-- Tells that a reader has gone on and stands at a character further on. -/
structure Beyond (r r' : Rewindable) : Prop extends Onward r r' where
  pos_lt : r.pos < r'.pos

section Onward

variable {r r' r'' : Rewindable} {p : Char → Bool} {c : Char}

theorem Onward.refl (r : Rewindable) : Onward r r := ⟨Nat.le_refl _, rfl, Or.inl rfl⟩

theorem Onward.pos_le (h : Onward r r') : r.pos ≤ r'.pos :=
  h.pos.elim (fun heq => Int.le_of_eq heq.symm) fun hlt => Int.le_of_lt hlt.1

theorem Onward.trans (h : Onward r r') (h' : Onward r' r'') : Onward r r'' where
  size_le := Nat.le_trans h.size_le h'.size_le
  total_eq := h'.total_eq.trans h.total_eq
  pos := by
    have hsize := h'.size_le
    rcases h.pos with heq | ⟨hlt, hbound⟩ <;> rcases h'.pos with heq' | ⟨hlt', hbound'⟩
    · exact Or.inl (heq'.trans heq)
    · exact Or.inr ⟨heq ▸ hlt', hbound'⟩
    · exact Or.inr ⟨heq' ▸ hlt, by omega⟩
    · exact Or.inr ⟨Int.lt_trans hlt hlt', hbound'⟩

theorem Onward.beyond (h : Onward r r') (h' : Beyond r' r'') : Beyond r r'' :=
  ⟨h.trans h'.toOnward, Int.lt_of_le_of_lt h.pos_le h'.pos_lt⟩

theorem Beyond.onward (h : Beyond r r') (h' : Onward r' r'') : Beyond r r'' :=
  ⟨h.toOnward.trans h', Int.lt_of_lt_of_le h.pos_lt h'.pos_le⟩

/-- A reader that has moved is nearer to the end. -/
theorem Beyond.ahead_lt (h : Beyond r r') : r'.ahead < r.ahead := by
  have htotal := h.total_eq
  have hlt := h.pos_lt
  rcases h.pos with heq | ⟨-, hbound⟩ <;> unfold ahead <;> omega

/-- To drop what has been read takes no reader further away. -/
theorem Beyond.ahead_ignore_lt (h : Beyond r r') : r'.ignore.ahead < r.ahead := by
  have hlt := h.ahead_lt
  have hpos := h.pos_lt
  -- Behind the last character a drop would gain a place; a reader that has moved is not there.
  rcases h.pos with heq | ⟨-, hbound⟩
  · omega
  · simp only [ahead, ignore, viewed, Array.size_extract, Nat.min_self] at hlt ⊢
    omega

theorem onward_acceptIf {accepted : Option Char} (h : r.acceptIf p = (accepted, r')) :
    Onward r r' := by
  have hsize := size_fill (r.pos + 1) r.buffer r.source
  unfold acceptIf at h
  split at h
  · rename_i c looked heq
    simp only [peek, following?, Prod.mk.injEq] at heq
    obtain ⟨hfollowing, rfl⟩ := heq
    have hlt := (Array.getElem?_eq_some_iff.1 hfollowing).1
    split at h
    · obtain ⟨-, rfl⟩ := Prod.mk.inj h
      exact ⟨hsize.1, hsize.2, Or.inr ⟨by dsimp only; omega, by dsimp only; omega⟩⟩
    · obtain ⟨-, rfl⟩ := Prod.mk.inj h
      exact ⟨hsize.1, hsize.2, Or.inl rfl⟩
  · rename_i looked heq
    obtain ⟨-, rfl⟩ := Prod.mk.inj heq
    obtain ⟨-, rfl⟩ := Prod.mk.inj h
    exact ⟨hsize.1, hsize.2, Or.inl rfl⟩

/-- Accepting a character moves the reader on. -/
theorem beyond_acceptIf (h : r.acceptIf p = (some c, r')) : Beyond r r' := by
  refine ⟨onward_acceptIf h, ?_⟩
  unfold acceptIf at h
  split at h
  · rename_i d looked heq
    split at h
    · obtain ⟨-, rfl⟩ := Prod.mk.inj h
      obtain ⟨-, rfl⟩ := Prod.mk.inj heq
      dsimp only
      omega
    · simp at h
  · simp at h

end Onward

/-- Moves on until the next character does not meet `p`. -/
def passWhile (p : Char → Bool) (r : Rewindable) : Rewindable :=
  match h : r.acceptIf p with
  | (some _, moved) =>
    have : moved.ahead < r.ahead := (beyond_acceptIf h).ahead_lt
    passWhile p moved
  | (none, stayed) => stayed
termination_by r.ahead

/-- Moves on as long as the next character meets `p`; tells whether it moved at all. -/
def advanceWhile (p : Char → Bool) (r : Rewindable) : Bool × Rewindable :=
  match r.acceptIf p with
  | (some _, moved) => (true, moved.passWhile p)
  | (none, stayed) => (false, stayed)

/-- Moves on if the next character is `c`. -/
def accept (c : Char) (r : Rewindable) : Option Char × Rewindable :=
  r.acceptIf (· == c)

/-- Moves on if the next character is one of `set`. -/
def acceptAny (set : List Char) (r : Rewindable) : Option Char × Rewindable :=
  r.acceptIf set.contains

/-- Moves on if the next character is `c`, and tells whether it did. -/
def acceptChar (c : Char) (r : Rewindable) : Bool × Rewindable :=
  let (accepted, moved) := r.accept c
  (accepted.isSome, moved)

/-- Moves over all characters of `set`. -/
def skipAll (set : List Char) (r : Rewindable) : Bool × Rewindable :=
  r.advanceWhile set.contains

/-- Moves on until a character of `set` or the end is next. -/
def untilAny (set : List Char) (r : Rewindable) : Bool × Rewindable :=
  r.advanceWhile fun c => !set.contains c

/-- Moves over a run of blanks. -/
def skipBlanks (r : Rewindable) : Bool × Rewindable :=
  r.advanceWhile isBlank

/-- Moves over the characters of a word, one after another; if one of them does not come next,
goes back to `back`. -/
def acceptEach (back : Int) : List Char → Rewindable → Bool × Rewindable
  | [], r => (true, r)
  | c :: word, r =>
    match r.accept c with
    | (some _, moved) => acceptEach back word moved
    | (none, stayed) => (false, { stayed with pos := back })

/-- Moves over `word` if all of it comes next; else stays. -/
def acceptWord (word : List Char) (r : Rewindable) : Bool × Rewindable :=
  r.acceptEach r.pos word

/-- Moves over an identifier if one comes next; else stays. -/
def acceptIdentifier (r : Rewindable) : Bool × Rewindable :=
  match r.acceptIf isIdentifierStart with
  | (some _, moved) => (true, moved.passWhile isIdentifierRest)
  | (none, stayed) => (false, stayed)

/-! ### Calls in a loop

A loop of calls comes to its end because each turn moves the reader on. -/

section Loop

variable {r r' : Rewindable} {p : Char → Bool} {c : Char} {word : List Char} {moved : Bool}

theorem onward_passWhile (p : Char → Bool) (r : Rewindable) : Onward r (r.passWhile p) := by
  fun_induction passWhile p r with
  | case1 r c moved h hlt ih => exact (onward_acceptIf h).trans ih
  | case2 r stayed h => exact onward_acceptIf h

theorem onward_advanceWhile (h : r.advanceWhile p = (moved, r')) : Onward r r' := by
  unfold advanceWhile at h
  split at h
  · rename_i c accepted haccept
    obtain ⟨-, rfl⟩ := Prod.mk.inj h
    exact (onward_acceptIf haccept).trans (onward_passWhile p accepted)
  · rename_i stayed haccept
    obtain ⟨-, rfl⟩ := Prod.mk.inj h
    exact onward_acceptIf haccept

theorem beyond_advanceWhile (h : r.advanceWhile p = (true, r')) : Beyond r r' := by
  unfold advanceWhile at h
  split at h
  · rename_i c accepted haccept
    obtain ⟨-, rfl⟩ := Prod.mk.inj h
    exact (beyond_acceptIf haccept).onward (onward_passWhile p accepted)
  · simp at h

theorem onward_acceptChar (h : r.acceptChar c = (moved, r')) : Onward r r' := by
  obtain ⟨-, rfl⟩ := Prod.mk.inj h
  exact onward_acceptIf rfl

theorem beyond_acceptChar (h : r.acceptChar c = (true, r')) : Beyond r r' := by
  obtain ⟨haccepted, rfl⟩ := Prod.mk.inj h
  obtain ⟨d, hd⟩ := Option.isSome_iff_exists.1 haccepted
  exact beyond_acceptIf (Prod.ext hd rfl)

/-- A reader goes on over a word, or goes back from further on to where it is told to. -/
theorem acceptEach_cases (back : Int) (word : List Char) (r : Rewindable) :
    (∃ last, r.acceptEach back word = (true, last) ∧ Onward r last ∧
        (word ≠ [] → r.pos < last.pos)) ∨
      ∃ last, r.acceptEach back word = (false, { last with pos := back }) ∧ Onward r last := by
  induction word generalizing r with
  | nil => exact Or.inl ⟨r, rfl, .refl r, fun hne => absurd rfl hne⟩
  | cons c word ih =>
    rw [acceptEach, accept]
    split
    · rename_i d accepted haccept
      have hbeyond := beyond_acceptIf haccept
      rcases ih accepted with ⟨last, heq, hlast, -⟩ | ⟨last, heq, hlast⟩
      · exact Or.inl ⟨last, heq, (hbeyond.onward hlast).toOnward,
          fun _ => (hbeyond.onward hlast).pos_lt⟩
      · exact Or.inr ⟨last, heq, (hbeyond.onward hlast).toOnward⟩
    · rename_i stayed haccept
      exact Or.inr ⟨stayed, rfl, onward_acceptIf haccept⟩

theorem onward_acceptWord (h : r.acceptWord word = (moved, r')) : Onward r r' := by
  unfold acceptWord at h
  -- A reader that goes back keeps what it has taken, but stands where it stood.
  rcases acceptEach_cases r.pos word r with ⟨last, heq, hlast, -⟩ | ⟨last, heq, hlast⟩
  · rw [heq] at h
    obtain ⟨-, rfl⟩ := Prod.mk.inj h
    exact hlast
  · rw [heq] at h
    obtain ⟨-, rfl⟩ := Prod.mk.inj h
    exact ⟨hlast.size_le, hlast.total_eq, Or.inl rfl⟩

theorem beyond_acceptWord (h : r.acceptWord word = (true, r')) (hne : word ≠ []) :
    Beyond r r' := by
  refine ⟨onward_acceptWord h, ?_⟩
  unfold acceptWord at h
  rcases acceptEach_cases r.pos word r with ⟨last, heq, -, hlt⟩ | ⟨last, heq, -⟩
  · rw [heq] at h
    obtain ⟨-, rfl⟩ := Prod.mk.inj h
    exact hlt hne
  · rw [heq] at h
    simp at h

/-- Where there is a next character, the reader moves on to it. -/
theorem beyond_next (h : r.next = (some c, r')) : Beyond r r' := by
  have hsize := size_fill (r.pos + 1) r.buffer r.source
  obtain ⟨hcurr, rfl⟩ := Prod.mk.inj h
  unfold curr at hcurr
  split at hcurr
  · cases hcurr
  · rename_i hpos
    have hlt := (Array.getElem?_eq_some_iff.1 hcurr).1
    dsimp only at hpos hlt ⊢
    exact ⟨⟨hsize.1, hsize.2, Or.inr ⟨by dsimp only; omega, by dsimp only; omega⟩⟩, by
      dsimp only; omega⟩

end Loop

end Rewindable

end Earley
