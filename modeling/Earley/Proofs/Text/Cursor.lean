/-
  `Cursor` — a plain cursor over a text, and the calls that a reader answers.

  A cursor has before it all characters that were not dropped, and a position in them: `-1` before
  the first one, and their number behind the last one. It knows no source and no buffer. What a
  call does to it is said in terms of the characters ahead of it: to look is to see the first of
  them, to accept is to go over it, and to pass a run is to go over the longest stretch of it.

  `Cursor` is what a rewindable reader is measured by. A call is answered, and then the position,
  the current character and the view can be seen; all of this together is the reply to the call.
-/
import Earley.Text.Rewindable

namespace Earley

/-! ### Calls and replies -/

/-- A call to a reader, with its arguments. -/
inductive Call
  | next
  | prev
  | curr
  | peek
  | pos
  | view
  | setPos (target : Int)
  | ignore
  | extract
  /-- Like `extract`, with a text as the answer. -/
  | extractText
  | accept (c : Char)
  | acceptAny (set : List Char)
  | acceptChar (c : Char)
  /-- Like `acceptAny`, with the characters of a text. -/
  | acceptAnyOf (set : String)
  | acceptWord (word : String)
  | skipAll (set : List Char)
  | untilAny (set : List Char)
  | skipBlanks
  | acceptIdentifier
  deriving DecidableEq

namespace Call

/-- Tells whether a call drops what has been read. -/
def drops : Call → Bool
  | ignore | extract | extractText => true
  | _ => false

/-- The position that a call asks for, if it asks for one. -/
def target? : Call → Option Int
  | setPos target => some target
  | _ => none

end Call

/-- The answer to a call. -/
inductive Answer
  | nothing
  | character (c : Option Char)
  | characters (cs : List Char)
  | text (s : String)
  | flag (b : Bool)
  | position (pos : Int)
  deriving DecidableEq

/-- The answer to a call, and what can be seen behind it. -/
structure Reply where
  answer : Answer
  pos : Int
  curr : Option Char
  view : List Char
  deriving DecidableEq

/-- The replies to calls, one after another, and the state behind them. -/
def replies {σ : Type} (reply : σ → Call → Reply × σ) (s : σ) : List Call → List Reply × σ
  | [] => ([], s)
  | call :: calls =>
    let first := reply s call
    let others := replies reply first.2 calls
    (first.1 :: others.1, others.2)

/-! ### The cursor -/

/-- A cursor over the characters that were not dropped. -/
structure Cursor where
  rest : List Char
  /-- The place of the current character, from `-1` to the number of characters. -/
  pos : Int
  deriving DecidableEq

namespace Cursor

/-- A cursor before the first character. -/
def ofChars (cs : List Char) : Cursor := ⟨cs, -1⟩

/-- The cursor at another position. -/
def moveTo (c : Cursor) (pos : Int) : Cursor := { c with pos := pos }

/-- The character at the position, if there is one. -/
def curr (c : Cursor) : Option Char :=
  if c.pos < 0 then none else c.rest[c.pos.toNat]?

/-- How many characters have been read, the current one included. -/
def viewed (c : Cursor) : Nat := min (c.pos + 1).toNat c.rest.length

/-- What has been read, the current character included. -/
def view (c : Cursor) : List Char := c.rest.take c.viewed

/-- What has not been read. -/
def ahead (c : Cursor) : List Char := c.rest.drop (c.pos + 1).toNat

/-- The cursor before the first character that has not been read, with all others dropped. -/
def drop (c : Cursor) : Cursor := ofChars (c.rest.drop c.viewed)

/-- Moves on by one character, at most behind the last one. -/
def next (c : Cursor) : Cursor := c.moveTo (min (c.pos + 1) c.rest.length)

/-- Moves back by one character, at most before the first one. -/
def prev (c : Cursor) : Cursor := c.moveTo (max (c.pos - 1) (-1))

/-- Moves to a position that there is. -/
def setPos (c : Cursor) (pos : Int) : Bool × Cursor :=
  if -1 ≤ pos ∧ pos ≤ c.rest.length then (true, c.moveTo pos) else (false, c)

/-- Moves over the next character if it meets `p`. -/
def acceptIf (p : Char → Bool) (c : Cursor) : Option Char × Cursor :=
  match c.ahead with
  | [] => (none, c)
  | d :: _ => if p d then (some d, c.moveTo (c.pos + 1)) else (none, c)

/-- Moves over `count` characters. -/
def advance (c : Cursor) (count : Nat) : Cursor := c.moveTo (c.pos + count)

/-- Moves over all characters ahead up to the first that does not meet `p`; tells whether there
are any. -/
def advanceWhile (p : Char → Bool) (c : Cursor) : Bool × Cursor :=
  let run := c.ahead.takeWhile p
  (!run.isEmpty, c.advance run.length)

/-- Moves over `word` if what is ahead begins with it. -/
def acceptWord (word : List Char) (c : Cursor) : Bool × Cursor :=
  if word.isPrefixOf c.ahead then (true, c.advance word.length) else (false, c)

/-- Moves over the longest identifier that what is ahead begins with. -/
def acceptIdentifier (c : Cursor) : Bool × Cursor :=
  match c.ahead with
  | [] => (false, c)
  | d :: ds =>
    if isIdentifierStart d then (true, c.advance (1 + (ds.takeWhile isIdentifierRest).length))
    else (false, c)

/-! ### What is ahead -/

variable {c : Cursor}

theorem advance_zero (c : Cursor) : c.advance 0 = c := by
  simp [advance, moveTo]

theorem advance_advance (c : Cursor) (m n : Nat) : (c.advance m).advance n = c.advance (m + n) := by
  simp [advance, moveTo, Int.add_assoc]

/-- To advance is to leave that many characters of what is ahead behind. -/
theorem ahead_advance (h : -1 ≤ c.pos) (count : Nat) :
    (c.advance count).ahead = c.ahead.drop count := by
  rw [ahead, ahead, List.drop_drop]
  congr 1
  show (c.pos + count + 1).toNat = (c.pos + 1).toNat + count
  omega

/-- The view of a cursor ends behind its position, or with the text. -/
theorem view_eq_take (c : Cursor) : c.view = c.rest.take (c.pos + 1).toNat := by
  rw [view, viewed, List.take_eq_take_iff]
  omega

/-- To advance is to read that many characters of what is ahead. -/
theorem view_advance (h : -1 ≤ c.pos) (count : Nat) :
    (c.advance count).view = c.view ++ c.ahead.take count := by
  rw [view_eq_take, view_eq_take, ahead, ← List.take_add]
  congr 1
  show (c.pos + count + 1).toNat = (c.pos + 1).toNat + count
  omega

/-- What is ahead is not dropped. -/
theorem drop_eq (c : Cursor) : c.drop = ofChars c.ahead := by
  rw [drop, ahead, viewed]
  congr 1
  rw [List.drop_eq_drop_iff]
  omega

/-- Where something is ahead, the next character is the first of it. -/
theorem next_of_ahead_eq_cons {d : Char} {ds : List Char} (hpos : -1 ≤ c.pos)
    (h : c.ahead = d :: ds) : c.next = c.advance 1 ∧ c.next.curr = some d := by
  have hget : c.rest[(c.pos + 1).toNat]? = some d := by
    rw [← List.head?_drop]
    exact congrArg List.head? h
  have hlt := (List.getElem?_eq_some_iff.1 hget).1
  have hnext : c.next = c.advance 1 := by
    rw [next, advance]
    congr 1
    omega
  refine ⟨hnext, ?_⟩
  rw [hnext]
  show (if c.pos + 1 < 0 then none else c.rest[(c.pos + 1).toNat]?) = some d
  rw [if_neg (by omega), hget]

/-- Where nothing is ahead, there is no next character, and nothing changes. -/
theorem next_of_ahead_eq_nil (hpos : -1 ≤ c.pos) (h : c.ahead = []) :
    c.next.curr = none ∧ c.next.view = c.view ∧ c.next.ahead = [] := by
  have hle := List.drop_eq_nil_iff.1 h
  have hnext : c.next.pos = min (c.pos + 1) c.rest.length := rfl
  have hrest : c.next.rest = c.rest := rfl
  refine ⟨?_, ?_, ?_⟩
  · rw [curr, hnext, hrest]
    split
    · rfl
    · exact List.getElem?_eq_none (by omega)
  · rw [view_eq_take, view_eq_take, hnext, hrest, List.take_of_length_le (by omega),
      List.take_of_length_le hle]
  · rw [ahead, hnext, hrest, List.drop_eq_nil_iff]
    omega

/-- A call that accepts goes over the next character, or there is none that it could go over. -/
theorem acceptIf_cases (p : Char → Bool) (c : Cursor) :
    (∃ d ds, c.ahead = d :: ds ∧ p d = true ∧ c.acceptIf p = (some d, c.advance 1)) ∨
      c.ahead.takeWhile p = [] ∧ c.acceptIf p = (none, c) := by
  unfold acceptIf
  cases c.ahead with
  | nil => exact Or.inr ⟨rfl, rfl⟩
  | cons d ds =>
    by_cases hd : p d = true
    · exact Or.inl ⟨d, ds, rfl, hd, if_pos hd⟩
    · exact Or.inr ⟨List.takeWhile_cons_of_neg hd, if_neg hd⟩

/-! ### Calls to a cursor -/

/-- What a call does to a cursor. -/
def perform (c : Cursor) : Call → Answer × Cursor
  | .next => (.character c.next.curr, c.next)
  | .prev => (.character c.prev.curr, c.prev)
  | .curr => (.character c.curr, c)
  | .peek => (.character c.ahead.head?, c)
  | .pos => (.position c.pos, c)
  | .view => (.characters c.view, c)
  | .setPos target => (c.setPos target).map .flag id
  | .ignore => (.nothing, c.drop)
  | .extract => (.characters c.view, c.drop)
  | .extractText => (.text (String.ofList c.view), c.drop)
  | .accept d => (c.acceptIf (· == d)).map .character id
  | .acceptAny set => (c.acceptIf set.contains).map .character id
  | .acceptChar d => (c.acceptIf (· == d)).map (fun accepted => .flag accepted.isSome) id
  | .acceptAnyOf set => (c.acceptIf set.toList.contains).map .character id
  | .acceptWord word => (c.acceptWord word.toList).map .flag id
  | .skipAll set => (c.advanceWhile set.contains).map .flag id
  | .untilAny set => (c.advanceWhile fun d => !set.contains d).map .flag id
  | .skipBlanks => (c.advanceWhile isBlank).map .flag id
  | .acceptIdentifier => c.acceptIdentifier.map .flag id

/-- The reply of a cursor to a call. -/
def reply (c : Cursor) (call : Call) : Reply × Cursor :=
  let performed := c.perform call
  (⟨performed.1, performed.2.pos, performed.2.curr, performed.2.view⟩, performed.2)

end Cursor

end Earley
