/-
  A rewindable reader is a plain cursor.

  The cursor of a reader stands over the characters in the buffer and those in the source behind
  them. A reader shows what its cursor shows as long as the buffer covers the position: the position
  is in front of the end of the buffer, or at its end with the source dry (`Covers`). To take
  characters from the source moves them from one side to the other, so it leaves the cursor alone,
  and the buffer goes on to cover every position that it covered (`Takes`).

  Each call that drops nothing does to the reader what it does to the cursor (`Follows`); a call
  that drops leaves a reader before the rest. So all replies are those of the cursor, as long as the
  calls go back only to positions that were seen (`replies_spec`).
-/
import Earley.Proofs.Text.Cursor

namespace Earley

namespace Rewindable

/-! ### Calls to a reader -/

/-- What a call does to a reader. -/
def perform (r : Rewindable) : Call → Answer × Rewindable
  | .next => r.next.map .character id
  | .prev => r.prev.map .character id
  | .curr => (.character r.curr, r)
  | .peek => r.peek.map .character id
  | .pos => (.position r.pos, r)
  | .view => (.characters r.view, r)
  | .setPos target => (r.setPos target).map .flag id
  | .ignore => (.nothing, r.ignore)
  | .extract => r.extract.map .characters id
  | .extractText => r.extract.map (fun cs => .text (String.ofList cs)) id
  | .accept c => (r.accept c).map .character id
  | .acceptAny set => (r.acceptAny set).map .character id
  | .acceptChar c => (r.acceptChar c).map .flag id
  | .acceptAnyOf set => (r.acceptAny set.toList).map .character id
  | .acceptWord word => (r.acceptWord word.toList).map .flag id
  | .skipAll set => (r.skipAll set).map .flag id
  | .untilAny set => (r.untilAny set).map .flag id
  | .skipBlanks => r.skipBlanks.map .flag id
  | .acceptIdentifier => r.acceptIdentifier.map .flag id

/-- The reply of a reader to a call. -/
def reply (r : Rewindable) (call : Call) : Reply × Rewindable :=
  let performed := r.perform call
  (⟨performed.1, performed.2.pos, performed.2.curr, performed.2.view⟩, performed.2)

/-- The characters that calls drop, in order. -/
def dropped (r : Rewindable) : List Call → List Char
  | [] => []
  | call :: calls => (if call.drops then r.view else []) ++ (r.perform call).2.dropped calls

/-- Tells that calls go back only to `-1`, or to a position where the reader stood since the last
drop; `seen` are those from before. -/
def Revisits (seen : List Int) (r : Rewindable) : List Call → Prop
  | [] => True
  | call :: calls =>
    (∀ pos ∈ call.target?, pos = -1 ∨ pos ∈ seen) ∧
      Revisits ((r.perform call).2.pos :: if call.drops then [] else seen) (r.perform call).2 calls

instance decidableRevisits (seen : List Int) (r : Rewindable) :
    (calls : List Call) → Decidable (r.Revisits seen calls)
  | [] => isTrue trivial
  | call :: calls =>
    have := decidableRevisits ((r.perform call).2.pos :: if call.drops then [] else seen)
      (r.perform call).2 calls
    inferInstanceAs (Decidable ((∀ pos ∈ call.target?, pos = -1 ∨ pos ∈ seen) ∧ _))

/-! ### The cursor of a reader -/

variable {r r' r'' : Rewindable} {p : Char → Bool} {pos : Int}

/-- The characters that have not been dropped. -/
def remaining (r : Rewindable) : List Char := r.buffer.toList ++ r.source

/-- The cursor that a reader stands for. -/
def cursor (r : Rewindable) : Cursor := ⟨r.remaining, r.pos⟩

/-- Tells that a reader can stand at `pos`: in front of the first character, at a character of the
buffer, or at the end of the buffer. -/
def InBuffer (r : Rewindable) (pos : Int) : Prop := -1 ≤ pos ∧ pos ≤ r.buffer.size

/-- Tells that the buffer holds all that a cursor at `pos` has read: it goes on behind `pos`, or it
ends there and the source is dry. -/
def Covers (r : Rewindable) (pos : Int) : Prop :=
  -1 ≤ pos ∧ (pos < r.buffer.size ∨ pos = r.buffer.size ∧ r.source = [])

@[simp]
theorem rest_cursor (r : Rewindable) : r.cursor.rest = r.remaining := rfl

@[simp]
theorem pos_cursor (r : Rewindable) : r.cursor.pos = r.pos := rfl

theorem length_remaining (r : Rewindable) :
    r.remaining.length = r.buffer.size + r.source.length := by
  rw [remaining, List.length_append, Array.length_toList]

theorem covers_before (r : Rewindable) : r.Covers (-1) := ⟨by omega, Or.inl (by omega)⟩

theorem Covers.inBuffer (h : r.Covers pos) : r.InBuffer pos :=
  ⟨h.1, h.2.elim Int.le_of_lt fun hend => Int.le_of_eq hend.1⟩

/-- The positions before one that is covered are covered. -/
theorem Covers.of_le {back : Int} (h : r.Covers pos) (hlower : -1 ≤ back) (hle : back ≤ pos) :
    r.Covers back := by
  refine ⟨hlower, ?_⟩
  rcases h.2 with hlt | ⟨heq, hdry⟩
  · exact Or.inl (by omega)
  · exact (Int.lt_or_eq_of_le (heq ▸ hle)).imp_right fun hend => ⟨hend, hdry⟩

/-- A position that is covered is one of the cursor. -/
theorem Covers.le_length (h : r.Covers pos) : pos ≤ r.remaining.length := by
  have hlength := r.length_remaining
  rcases h.2 with hlt | ⟨heq, -⟩ <;> omega

theorem getElem?_remaining_of_covers (h : r.Covers pos) (hpos : 0 ≤ pos) :
    r.remaining[pos.toNat]? = r.buffer[pos.toNat]? := by
  rw [remaining, ← Array.getElem?_toList]
  rcases h.2 with hlt | ⟨-, hdry⟩
  · exact List.getElem?_append_left (by rw [Array.length_toList]; omega)
  · rw [hdry, List.append_nil]

/-- A reader shows the current character of its cursor. -/
theorem curr_eq_curr_cursor (h : r.Covers r.pos) : r.curr = r.cursor.curr := by
  rw [curr, Cursor.curr, pos_cursor]
  by_cases hpos : r.pos < 0
  · rw [if_pos hpos, if_pos hpos]
  · rw [if_neg hpos, if_neg hpos, rest_cursor, getElem?_remaining_of_covers h (by omega)]

theorem viewed_eq_viewed_cursor (h : r.Covers r.pos) : r.viewed = r.cursor.viewed := by
  have hlength := r.length_remaining
  rw [viewed, Cursor.viewed, rest_cursor, pos_cursor]
  rcases h.2 with hlt | ⟨heq, hdry⟩
  · omega
  · rw [hdry, List.length_nil] at hlength
    omega

theorem viewed_le_size (r : Rewindable) : r.viewed ≤ r.buffer.size := Nat.min_le_right _ _

/-- A reader shows the view of its cursor. -/
theorem view_eq_view_cursor (h : r.Covers r.pos) : r.view = r.cursor.view := by
  have hle := r.viewed_le_size
  rw [← Array.length_toList] at hle
  rw [view, Cursor.view, ← viewed_eq_viewed_cursor h, rest_cursor, remaining,
    List.take_append_of_le_length hle]

/-! ### Taking characters from the source -/

/-- Tells that `r'` has taken characters from the source of `r` into its buffer. -/
def Takes (r r' : Rewindable) : Prop :=
  ∃ taken, r.source = taken ++ r'.source ∧ r'.buffer.toList = r.buffer.toList ++ taken

namespace Takes

theorem refl (r : Rewindable) : Takes r r := ⟨[], rfl, (List.append_nil _).symm⟩

theorem trans (h : Takes r r') (h' : Takes r' r'') : Takes r r'' := by
  obtain ⟨taken, hsource, hbuffer⟩ := h
  obtain ⟨taken', hsource', hbuffer'⟩ := h'
  refine ⟨taken ++ taken', ?_, ?_⟩
  · rw [hsource, hsource', List.append_assoc]
  · rw [hbuffer', hbuffer, List.append_assoc]

/-- Nothing is lost, and nothing comes in twice. -/
theorem remaining_eq (h : Takes r r') : r'.remaining = r.remaining := by
  obtain ⟨taken, hsource, hbuffer⟩ := h
  rw [remaining, remaining, hsource, hbuffer, List.append_assoc]

theorem cursor_eq (h : Takes r r') : r'.cursor = r.cursor.moveTo r'.pos := by
  rw [cursor, h.remaining_eq]
  rfl

theorem exists_size_eq (h : Takes r r') :
    ∃ taken, r.source = taken ++ r'.source ∧ r'.buffer.size = r.buffer.size + taken.length := by
  obtain ⟨taken, hsource, hbuffer⟩ := h
  refine ⟨taken, hsource, ?_⟩
  rw [← Array.length_toList, hbuffer, List.length_append, Array.length_toList]

theorem inBuffer (h : Takes r r') (hpos : r.InBuffer pos) : r'.InBuffer pos := by
  obtain ⟨taken, -, hsize⟩ := h.exists_size_eq
  exact ⟨hpos.1, Int.le_trans hpos.2 (by omega)⟩

/-- What is covered stays covered. -/
theorem covers (h : Takes r r') (hcovers : r.Covers pos) : r'.Covers pos := by
  obtain ⟨taken, hsource, hsize⟩ := h.exists_size_eq
  refine ⟨hcovers.1, ?_⟩
  rcases hcovers.2 with hlt | ⟨heq, hdry⟩
  · exact Or.inl (by omega)
  · rw [hdry] at hsource
    obtain ⟨rfl, hdry'⟩ := List.append_eq_nil_iff.1 hsource.symm
    exact Or.inr ⟨by simpa [hsize] using heq, hdry'⟩

end Takes

/-- Filling takes characters until the buffer has one at the position or the source is dry. -/
theorem fill_spec (pos : Int) (buffer : Array Char) (source : List Char) :
    (∃ taken, source = taken ++ (fill pos buffer source).2 ∧
      (fill pos buffer source).1.toList = buffer.toList ++ taken) ∧
    (pos < (fill pos buffer source).1.size ∨ (fill pos buffer source).2 = []) := by
  induction source generalizing buffer with
  | nil => exact ⟨⟨[], rfl, (List.append_nil _).symm⟩, Or.inr rfl⟩
  | cons c source ih =>
    unfold fill
    split
    · next hlt => exact ⟨⟨[], rfl, (List.append_nil _).symm⟩, Or.inl hlt⟩
    · obtain ⟨⟨taken, hsource, hbuffer⟩, hend⟩ := ih (buffer.push c)
      refine ⟨⟨c :: taken, by rw [List.cons_append, ← hsource], ?_⟩, hend⟩
      rw [hbuffer, Array.toList_push, List.append_assoc, List.singleton_append]

theorem takes_peek (r : Rewindable) : Takes r r.peek.2 :=
  (fill_spec (r.pos + 1) r.buffer r.source).1

/-- Behind a look ahead the buffer has the next character, or the source is dry. -/
theorem lt_size_peek (r : Rewindable) :
    r.pos + 1 < r.peek.2.buffer.size ∨ r.peek.2.source = [] :=
  (fill_spec (r.pos + 1) r.buffer r.source).2

/-- Behind a look ahead the position is covered, even if the buffer ended there before. -/
theorem covers_peek (h : r.InBuffer r.pos) : r.peek.2.Covers r.pos := by
  have hbound := (r.takes_peek.inBuffer h).2
  refine ⟨h.1, ?_⟩
  rcases r.lt_size_peek with hlt | hdry
  · exact Or.inl (by omega)
  · exact (Int.lt_or_eq_of_le hbound).imp_right fun heq => ⟨heq, hdry⟩

/-- A look ahead gives the first character ahead of the cursor. -/
theorem peek_fst (h : -1 ≤ r.pos) : r.peek.1 = r.cursor.ahead.head? := by
  have hpeek : r.peek.1 = r.peek.2.buffer[(r.pos + 1).toNat]? := rfl
  rw [hpeek, Cursor.ahead, pos_cursor, rest_cursor, ← r.takes_peek.remaining_eq, List.head?_drop,
    remaining, ← Array.getElem?_toList]
  rcases r.lt_size_peek with hlt | hdry
  · exact (List.getElem?_append_left (by rw [Array.length_toList]; omega)).symm
  · rw [hdry, List.append_nil]

/-! ### Calls that drop nothing -/

/-- Tells that the outcome of a call to a reader is that of the call to its cursor, and that the
reader has only taken characters from its source. -/
structure Follows {α : Type} (r : Rewindable) (outcome : α × Rewindable)
    (expected : α × Cursor) : Prop where
  answer : outcome.1 = expected.1
  cursor : outcome.2.cursor = expected.2
  takes : Takes r outcome.2
  covers : outcome.2.Covers outcome.2.pos

namespace Follows

variable {α β : Type} {outcome : α × Rewindable} {expected : α × Cursor} {a : α}

theorem map (h : Follows r outcome expected) (f : α → β) :
    Follows r (outcome.map f id) (expected.map f id) :=
  ⟨congrArg f h.answer, h.cursor, h.takes, h.covers⟩

/-- A call only looks at what the cursor shows, too. -/
theorem look (h : r.Covers r.pos) {a' : α} (heq : a = a') : Follows r (a, r) (a', r.cursor) :=
  ⟨heq, rfl, .refl r, h⟩

/-- A call takes characters and moves to a place that is covered then. -/
theorem move (htakes : Takes r r') (hcovers : r'.Covers r'.pos) :
    Follows r (a, r') (a, r.cursor.moveTo r'.pos) :=
  ⟨rfl, htakes.cursor_eq, htakes, hcovers⟩

/-- One call behind another one. -/
theorem trans {outcome' : β × Rewindable} {expected' : β × Cursor} (h : Follows r outcome expected)
    (h' : Follows outcome.2 outcome' expected') : Follows r outcome' expected' :=
  ⟨h'.answer, h'.cursor, h.takes.trans h'.takes, h'.covers⟩

end Follows

/-- The position behind the current one, or the end, is covered once a reader has looked ahead. -/
theorem covers_next (hpos : -1 ≤ r.pos) :
    r.peek.2.Covers (min (r.pos + 1) r.peek.2.buffer.size) := by
  rcases r.lt_size_peek with hlt | hdry
  · exact ⟨by omega, Or.inl (by omega)⟩
  · refine ⟨by omega, ?_⟩
    rcases Int.lt_or_le (r.pos + 1) r.peek.2.buffer.size with hlt | hle
    · exact Or.inl (by omega)
    · exact Or.inr ⟨by omega, hdry⟩

theorem next_follows (h : r.InBuffer r.pos) :
    Follows r r.next (r.cursor.next.curr, r.cursor.next) := by
  have hcovers : r.next.2.Covers r.next.2.pos := covers_next h.1
  have htakes : Takes r r.next.2 := r.takes_peek
  have hcursor : r.next.2.cursor = r.cursor.next := by
    -- The buffer ends where the text does, unless it goes on behind the position.
    have hmin : min (r.pos + 1) (r.peek.2.buffer.size : Int) =
        min (r.pos + 1) r.remaining.length := by
      have hlength := r.peek.2.length_remaining
      rw [r.takes_peek.remaining_eq] at hlength
      rcases r.lt_size_peek with hlt | hdry
      · omega
      · rw [hdry, List.length_nil] at hlength
        omega
    rw [htakes.cursor_eq]
    exact congrArg r.cursor.moveTo hmin
  have hcurr := (curr_eq_curr_cursor hcovers).trans (congrArg Cursor.curr hcursor)
  exact ⟨hcurr, hcursor, htakes, hcovers⟩

theorem prev_follows (h : r.InBuffer r.pos) :
    Follows r r.prev (r.cursor.prev.curr, r.cursor.prev) := by
  obtain ⟨hpos, hbound⟩ := h
  have htakes : Takes r r.prev.2 := by
    unfold prev
    split <;> exact .refl r
  have hprev : r.prev.2.pos = max (r.pos - 1) (-1) := by
    unfold prev
    split
    · show r.pos = max (r.pos - 1) (-1)
      omega
    · show r.pos - 1 = max (r.pos - 1) (-1)
      omega
  have hcovers : r.prev.2.Covers r.prev.2.pos := by
    rw [hprev]
    exact htakes.covers ⟨by omega, Or.inl (by omega)⟩
  have hcursor : r.prev.2.cursor = r.cursor.prev := by
    rw [htakes.cursor_eq, hprev]
    rfl
  have hcurr := (curr_eq_curr_cursor hcovers).trans (congrArg Cursor.curr hcursor)
  exact ⟨hcurr, hcursor, htakes, hcovers⟩

theorem setPos_follows (hpos : r.Covers pos) :
    Follows r (r.setPos pos) (r.cursor.setPos pos) := by
  have hle := hpos.le_length
  have hsize : ¬(pos < -1 ∨ r.buffer.size < pos) := by
    have hlower := hpos.1
    rcases hpos.2 with hlt | ⟨heq, -⟩ <;> omega
  rw [setPos, if_neg hsize, Cursor.setPos, if_pos ⟨hpos.1, by simpa using hle⟩]
  exact .move (.refl r) hpos

theorem peek_follows (h : r.InBuffer r.pos) :
    Follows r r.peek (r.cursor.ahead.head?, r.cursor) :=
  ⟨peek_fst h.1, r.takes_peek.cursor_eq, r.takes_peek, covers_peek h⟩

/-- If there is a next character, its place is covered once a reader has looked ahead. -/
theorem covers_succ (hpos : -1 ≤ r.pos) {c : Char} (hpeek : r.peek.1 = some c) :
    r.peek.2.Covers (r.pos + 1) := by
  have hlt : (r.pos + 1).toNat < r.peek.2.buffer.size := (Array.getElem?_eq_some_iff.1 hpeek).1
  exact ⟨by omega, Or.inl (by omega)⟩

theorem acceptIf_follows (h : r.InBuffer r.pos) (p : Char → Bool) :
    Follows r (r.acceptIf p) (r.cursor.acceptIf p) := by
  have hpeek := peek_follows h
  have hnext := @covers_succ r h.1
  unfold acceptIf
  rw [Cursor.acceptIf]
  generalize r.peek = outcome at hpeek hnext ⊢
  obtain ⟨first, looked⟩ := outcome
  obtain rfl : first = r.cursor.ahead.head? := hpeek.answer
  have hlooked : looked.pos = r.pos := congrArg Cursor.pos hpeek.cursor
  cases hahead : r.cursor.ahead with
  | nil => exact ⟨rfl, hpeek.cursor, hpeek.takes, hpeek.covers⟩
  | cons c cs =>
    dsimp only [List.head?_cons]
    split
    · have hmoved : Takes r { looked with pos := looked.pos + 1 } := hpeek.takes
      have hcovers := hnext (c := c) (by rw [hahead]; rfl)
      rw [← hlooked] at hcovers
      rw [pos_cursor, ← hlooked]
      exact .move hmoved hcovers
    · exact ⟨rfl, hpeek.cursor, hpeek.takes, hpeek.covers⟩

/-- A call that accepts goes over the next character, or it leaves the cursor where it is. -/
theorem acceptIf_outcome (h : r.InBuffer r.pos) (p : Char → Bool) :
    (∃ c cs moved, r.cursor.ahead = c :: cs ∧ p c = true ∧ r.acceptIf p = (some c, moved) ∧
      Follows r ((), moved) ((), r.cursor.advance 1) ∧ moved.cursor.ahead = cs) ∨
    ∃ stayed, r.cursor.ahead.takeWhile p = [] ∧ r.acceptIf p = (none, stayed) ∧
      Follows r ((), stayed) ((), r.cursor) := by
  have hstep := acceptIf_follows h p
  generalize r.acceptIf p = outcome at hstep ⊢
  obtain ⟨accepted, moved⟩ := outcome
  rcases r.cursor.acceptIf_cases p with ⟨c, cs, hahead, hc, heq⟩ | ⟨hnone, heq⟩
  · rw [heq] at hstep
    obtain rfl : accepted = some c := hstep.answer
    refine Or.inl ⟨c, cs, moved, hahead, hc, rfl, hstep.map fun _ => (), ?_⟩
    rw [hstep.cursor, Cursor.ahead_advance h.1, hahead, List.drop_one, List.tail_cons]
  · rw [heq] at hstep
    obtain rfl : accepted = none := hstep.answer
    exact Or.inr ⟨moved, hnone, rfl, hstep.map fun _ => ()⟩

theorem passWhile_follows (h : r.InBuffer r.pos) (p : Char → Bool) :
    Follows r ((), r.passWhile p) ((), r.cursor.advance (r.cursor.ahead.takeWhile p).length) := by
  fun_induction passWhile p r with
  | case1 r c moved haccept hlt ih =>
    rcases acceptIf_outcome h p with
      ⟨d, ds, moved', hahead, hd, heq, hstep, hds⟩ | ⟨stayed, -, heq, -⟩
    · rw [haccept] at heq
      cases heq
      have hrest := ih hstep.covers.inBuffer
      rw [hstep.cursor, Cursor.advance_advance, ← hstep.cursor, hds, Nat.add_comm] at hrest
      rw [hahead, List.takeWhile_cons_of_pos hd, List.length_cons]
      exact hstep.trans hrest
    · rw [haccept] at heq
      cases heq
  | case2 r stayed haccept =>
    rcases acceptIf_outcome h p with
      ⟨d, ds, moved, -, -, heq, -, -⟩ | ⟨stayed', hnone, heq, hstep⟩
    · rw [haccept] at heq
      cases heq
    · rw [haccept] at heq
      cases heq
      rwa [hnone, List.length_nil, Cursor.advance_zero]

theorem advanceWhile_follows (h : r.InBuffer r.pos) (p : Char → Bool) :
    Follows r (r.advanceWhile p) (r.cursor.advanceWhile p) := by
  rw [advanceWhile, Cursor.advanceWhile]
  rcases acceptIf_outcome h p with
    ⟨c, cs, moved, hahead, hc, heq, hstep, hcs⟩ | ⟨stayed, hnone, heq, hstep⟩
  · have hrest := passWhile_follows hstep.covers.inBuffer p
    rw [hstep.cursor, Cursor.advance_advance, ← hstep.cursor, hcs, Nat.add_comm] at hrest
    rw [heq, hahead, List.takeWhile_cons_of_pos hc]
    exact (hstep.trans hrest).map fun _ => true
  · rw [heq, hnone]
    dsimp only
    rw [List.length_nil, Cursor.advance_zero]
    exact hstep.map fun _ => false

/-- If a word comes next, the reader goes over it, and else to the place where it is told to go
back. -/
theorem acceptEach_follows {back : Int} (h : r.InBuffer r.pos) (hlower : -1 ≤ back)
    (hle : back ≤ r.pos) {word : List Char} (hword : word = [] → r.Covers r.pos) :
    Follows r (r.acceptEach back word)
      (if word.isPrefixOf r.cursor.ahead then (true, r.cursor.advance word.length)
        else (false, r.cursor.moveTo back)) := by
  induction word generalizing r with
  | nil =>
    rw [List.isPrefixOf_nil_left, if_pos rfl, List.length_nil, Cursor.advance_zero]
    exact .look (hword rfl) rfl
  | cons c word ih =>
    rw [acceptEach, accept]
    rcases acceptIf_outcome h (· == c) with
      ⟨d, ds, moved, hahead, hd, heq, hstep, hds⟩ | ⟨stayed, hnone, heq, hstep⟩
    · obtain rfl : d = c := by simpa using hd
      have hmoved : moved.pos = r.pos + 1 := congrArg Cursor.pos hstep.cursor
      have hmovedCovers : moved.Covers moved.pos := hstep.covers
      have hrest := ih hmovedCovers.inBuffer (by omega) fun _ => hmovedCovers
      rw [hds, hstep.cursor, Cursor.advance_advance, Nat.add_comm] at hrest
      rw [heq, hahead, List.isPrefixOf_cons_cons_self, List.length_cons]
      exact hstep.trans hrest
    · have hpre : (c :: word).isPrefixOf r.cursor.ahead = false := by
        cases hahead : r.cursor.ahead with
        | nil => rfl
        | cons d ds =>
          have hd : d ≠ c := by simpa [hahead, List.takeWhile_cons] using hnone
          rw [List.isPrefixOf_cons_cons, beq_false_of_ne hd.symm, Bool.false_and]
      have hstayed : stayed.pos = r.pos := congrArg Cursor.pos hstep.cursor
      have hcovers : stayed.Covers back := hstep.covers.of_le hlower (hstayed ▸ hle)
      rw [heq, hpre]
      exact .move hstep.takes hcovers

/-- To look for the empty word is not to look at all, so there the position has to be covered. -/
theorem acceptWord_follows (h : r.InBuffer r.pos) {word : List Char}
    (hword : word = [] → r.Covers r.pos) :
    Follows r (r.acceptWord word) (r.cursor.acceptWord word) :=
  acceptEach_follows h h.1 (Int.le_refl r.pos) hword

theorem acceptIdentifier_follows (h : r.InBuffer r.pos) :
    Follows r r.acceptIdentifier r.cursor.acceptIdentifier := by
  rw [acceptIdentifier, Cursor.acceptIdentifier]
  rcases acceptIf_outcome h isIdentifierStart with
    ⟨c, cs, moved, hahead, hc, heq, hstep, hcs⟩ | ⟨stayed, hnone, heq, hstep⟩
  · have hrest := passWhile_follows hstep.covers.inBuffer isIdentifierRest
    rw [hstep.cursor, Cursor.advance_advance, ← hstep.cursor, hcs] at hrest
    rw [heq, hahead]
    dsimp only
    rw [if_pos hc]
    exact (hstep.trans hrest).map fun _ => true
  · rw [heq]
    cases hahead : r.cursor.ahead with
    | nil => exact hstep.map fun _ => false
    | cons d ds =>
      have hd : ¬isIdentifierStart d = true := by
        simpa [hahead, List.takeWhile_cons] using hnone
      dsimp only
      rw [if_neg hd]
      exact hstep.map fun _ => false

/-- A call that drops nothing does to a reader what it does to its cursor. -/
theorem perform_follows (h : r.Covers r.pos) {call : Call} (hdrops : call.drops = false)
    (htarget : ∀ pos ∈ call.target?, r.Covers pos) :
    Follows r (r.perform call) (r.cursor.perform call) := by
  have hpos := h.inBuffer
  cases call with
  | next => exact (next_follows hpos).map Answer.character
  | prev => exact (prev_follows hpos).map Answer.character
  | curr => exact .look h (congrArg Answer.character (curr_eq_curr_cursor h))
  | peek => exact (peek_follows hpos).map Answer.character
  | pos => exact .look h rfl
  | view => exact .look h (congrArg Answer.characters (view_eq_view_cursor h))
  | setPos target => exact (setPos_follows (htarget target rfl)).map Answer.flag
  | ignore | extract | extractText => cases hdrops
  | accept c => exact (acceptIf_follows hpos (· == c)).map Answer.character
  | acceptAny set => exact (acceptIf_follows hpos set.contains).map Answer.character
  | acceptChar c =>
    exact (acceptIf_follows hpos (· == c)).map fun accepted => Answer.flag accepted.isSome
  | acceptAnyOf set => exact (acceptIf_follows hpos set.toList.contains).map Answer.character
  | acceptWord word => exact (acceptWord_follows hpos fun _ => h).map Answer.flag
  | skipAll set => exact (advanceWhile_follows hpos set.contains).map Answer.flag
  | untilAny set => exact (advanceWhile_follows hpos fun c => !set.contains c).map Answer.flag
  | skipBlanks => exact (advanceWhile_follows hpos isBlank).map Answer.flag
  | acceptIdentifier => exact (acceptIdentifier_follows hpos).map Answer.flag

/-! ### Calls that drop -/

/-- A drop takes what has been read from the front of what remains. -/
theorem remaining_ignore (r : Rewindable) : r.ignore.remaining = r.remaining.drop r.viewed := by
  have hle := r.viewed_le_size
  rw [← Array.length_toList] at hle
  have hbuffer : (r.buffer.extract r.viewed).toList = r.buffer.toList.drop r.viewed := by
    rw [Array.toList_extract, List.extract_eq_take_drop, List.take_of_length_le (by simp)]
  rw [remaining, ignore, hbuffer, remaining, List.drop_append_of_le_length hle]

theorem view_eq_take (r : Rewindable) : r.view = r.remaining.take r.viewed := by
  have hle := r.viewed_le_size
  rw [← Array.length_toList] at hle
  rw [view, remaining, List.take_append_of_le_length hle]

theorem cursor_ignore (h : r.Covers r.pos) : r.ignore.cursor = r.cursor.drop := by
  rw [cursor, remaining_ignore, Cursor.drop, ← viewed_eq_viewed_cursor h]
  rfl

/-- A call that drops gives what it gives for the cursor, and both are before the rest then. -/
theorem perform_of_drops (h : r.Covers r.pos) {call : Call} (hdrops : call.drops = true) :
    (r.perform call).1 = (r.cursor.perform call).1 ∧ (r.perform call).2 = r.ignore ∧
      (r.cursor.perform call).2 = r.cursor.drop := by
  cases call with
  | ignore => exact ⟨rfl, rfl, rfl⟩
  | extract => exact ⟨congrArg Answer.characters (view_eq_view_cursor h), rfl, rfl⟩
  | extractText =>
    exact ⟨congrArg (fun cs => Answer.text (String.ofList cs)) (view_eq_view_cursor h), rfl, rfl⟩
  | _ => cases hdrops

/-! ### All calls -/

/-- One call, whatever it is: the cursor answers it in the same way and agrees behind it, and as
long as nothing is dropped, what was covered stays covered. -/
theorem perform_spec (h : r.Covers r.pos) {call : Call}
    (htarget : ∀ pos ∈ call.target?, r.Covers pos) :
    (r.perform call).1 = (r.cursor.perform call).1 ∧
      (r.perform call).2.cursor = (r.cursor.perform call).2 ∧
      (r.perform call).2.Covers (r.perform call).2.pos ∧
      (call.drops = false → ∀ pos, r.Covers pos → (r.perform call).2.Covers pos) := by
  cases hdrops : call.drops with
  | false =>
    have hfollows := perform_follows h hdrops htarget
    exact ⟨hfollows.answer, hfollows.cursor, hfollows.covers,
      fun _ pos hpos => hfollows.takes.covers hpos⟩
  | true =>
    obtain ⟨hanswer, hreader, hcursor⟩ := perform_of_drops h hdrops
    rw [hreader, hcursor]
    exact ⟨hanswer, cursor_ignore h, covers_before _, nofun⟩

/-- What a call drops stood in front of what remains behind it. -/
theorem append_remaining_perform (h : r.Covers r.pos) {call : Call}
    (htarget : ∀ pos ∈ call.target?, r.Covers pos) :
    (if call.drops then r.view else []) ++ (r.perform call).2.remaining = r.remaining := by
  cases hdrops : call.drops with
  | false => exact (perform_follows h hdrops htarget).takes.remaining_eq
  | true =>
    rw [(perform_of_drops h hdrops).2.1, if_pos rfl, view_eq_take, remaining_ignore,
      List.take_append_drop]

/-- The reply to a call is that of the cursor. -/
theorem reply_fst (h : r.Covers r.pos) {call : Call}
    (htarget : ∀ pos ∈ call.target?, r.Covers pos) :
    (r.reply call).1 = (r.cursor.reply call).1 := by
  obtain ⟨hanswer, hcursor, hcovers, -⟩ := perform_spec h htarget
  rw [reply, Cursor.reply, ← hcursor, ← hanswer]
  simp only [curr_eq_curr_cursor hcovers, view_eq_view_cursor hcovers, pos_cursor]

/-- Calls one after another: a reader replies what its cursor replies, from any state in which it
covers where it stands and where it may go back to. -/
theorem replies_spec {seen : List Int} {calls : List Call} (h : r.Covers r.pos)
    (hseen : ∀ pos ∈ seen, r.Covers pos) (hrevisits : r.Revisits seen calls) :
    (replies reply r calls).1 = (replies Cursor.reply r.cursor calls).1 ∧
      (replies reply r calls).2.cursor = (replies Cursor.reply r.cursor calls).2 ∧
      (replies reply r calls).2.Covers (replies reply r calls).2.pos ∧
      r.dropped calls ++ (replies reply r calls).2.remaining = r.remaining := by
  induction calls generalizing r seen with
  | nil => exact ⟨rfl, rfl, h, rfl⟩
  | cons call calls ih =>
    obtain ⟨hback, hrest⟩ := hrevisits
    have htarget : ∀ pos ∈ call.target?, r.Covers pos := by
      intro pos hpos
      rcases hback pos hpos with rfl | hmem
      · exact r.covers_before
      · exact hseen pos hmem
    obtain ⟨-, hcursor, hcovers, hkeeps⟩ := perform_spec h htarget
    have hseen' : ∀ pos ∈ (r.perform call).2.pos :: if call.drops then [] else seen,
        (r.perform call).2.Covers pos := by
      rw [List.forall_mem_cons]
      refine ⟨hcovers, ?_⟩
      cases hdrops : call.drops with
      | true => exact nofun
      | false => exact fun pos hpos => hkeeps hdrops pos (hseen pos hpos)
    obtain ⟨hreplies, hlast, hend, hdropped⟩ := ih hcovers hseen' hrest
    rw [hcursor] at hreplies hlast
    refine ⟨congr (congrArg List.cons (reply_fst h htarget)) hreplies, hlast, hend, ?_⟩
    rw [dropped, List.append_assoc]
    exact (congrArg _ hdropped).trans (append_remaining_perform h htarget)

end Rewindable

/-- **A rewindable reader is a plain cursor.** As long as calls go back only to `-1` and to
positions that were seen since the last drop, the reader replies to all of them what a cursor over
the whole rest of the text replies. The position is one of the cursor, and what was dropped, in
order, and what remains, in the buffer and the source, make up the text. -/
theorem replies_eq_replies_cursor (text : List Char) (calls : List Call)
    (h : (Rewindable.ofChars text).Revisits [] calls) :
    let reader := replies Rewindable.reply (.ofChars text) calls
    let cursor := replies Cursor.reply (.ofChars text) calls
    reader.1 = cursor.1 ∧ reader.2.pos = cursor.2.pos ∧
      reader.2.buffer.toList ++ reader.2.source = cursor.2.rest ∧
      -1 ≤ cursor.2.pos ∧ cursor.2.pos ≤ cursor.2.rest.length ∧
      (Rewindable.ofChars text).dropped calls ++ cursor.2.rest = text := by
  have hstart : (Rewindable.ofChars text).cursor = .ofChars text := rfl
  obtain ⟨hreplies, hcursor, hcovers, hdropped⟩ :=
    Rewindable.replies_spec (Rewindable.covers_before (.ofChars text)) (by simp) h
  rw [hstart] at hreplies hcursor
  intro reader cursor
  have hlength := hcovers.le_length
  refine ⟨hreplies, congrArg Cursor.pos hcursor, congrArg Cursor.rest hcursor, ?_, ?_, ?_⟩
  · rw [← hcursor]
    exact hcovers.1
  · rw [← hcursor]
    exact hlength
  · rw [← hcursor]
    exact hdropped

/-- Calls that run into the end of a text, go back from there, and drop what they have read. -/
def backtrackingCalls : List Call :=
  [.acceptIdentifier, .skipBlanks, .acceptWord "b;", .next, .next, .peek, .setPos 2, .setPos 4,
    .setPos 1, .extractText, .untilAny [';'], .ignore, .next, .prev]

/-- What is replied to `backtrackingCalls` over the text `a1 b`. -/
def backtrackingReplies : List Reply :=
  let text := ['a', '1', ' ', 'b']
  [⟨.flag true, 1, some '1', ['a', '1']⟩, ⟨.flag true, 2, some ' ', ['a', '1', ' ']⟩,
    ⟨.flag false, 2, some ' ', ['a', '1', ' ']⟩, ⟨.character (some 'b'), 3, some 'b', text⟩,
    ⟨.character none, 4, none, text⟩, ⟨.character none, 4, none, text⟩,
    ⟨.flag true, 2, some ' ', ['a', '1', ' ']⟩, ⟨.flag true, 4, none, text⟩,
    ⟨.flag true, 1, some '1', ['a', '1']⟩, ⟨.text "a1", -1, none, []⟩,
    ⟨.flag true, 1, some 'b', [' ', 'b']⟩, ⟨.nothing, -1, none, []⟩,
    ⟨.character none, 0, none, []⟩, ⟨.character none, -1, none, []⟩]

theorem replies_cursor_backtrackingCalls :
    replies Cursor.reply (.ofChars ['a', '1', ' ', 'b']) backtrackingCalls =
      (backtrackingReplies, .ofChars []) := by
  decide +kernel

theorem replies_eq_replies_cursor_backtracking :
    (Rewindable.ofChars ['a', '1', ' ', 'b']).Revisits [] backtrackingCalls ∧
      (replies Rewindable.reply (.ofChars ['a', '1', ' ', 'b']) backtrackingCalls).1 =
        backtrackingReplies ∧
      (Rewindable.ofChars ['a', '1', ' ', 'b']).dropped backtrackingCalls =
        ['a', '1', ' ', 'b'] := by
  have hrevisits : (Rewindable.ofChars ['a', '1', ' ', 'b']).Revisits [] backtrackingCalls := by
    decide +kernel
  obtain ⟨hreplies, -, -, -, -, hdropped⟩ :=
    replies_eq_replies_cursor ['a', '1', ' ', 'b'] backtrackingCalls hrevisits
  rw [replies_cursor_backtrackingCalls] at hreplies hdropped
  exact ⟨hrevisits, hreplies, by simpa [Cursor.ofChars] using hdropped⟩

end Earley
