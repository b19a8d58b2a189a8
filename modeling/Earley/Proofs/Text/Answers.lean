/-
  What the answers of a reader tell about the text.

  A reader has read a part of the text since the last drop, and another part is ahead of it
  (`Reads`). It can be asked for the next character, for a run, a word or an identifier. From each
  answer follows how the part ahead begins, and what the reader has read behind it. These lemmas are
  all that a program which asks has to know: the buffer, the source and the position do not occur
  in them.
-/
import Earley.Proofs.Text.Rewindable

namespace Earley

namespace Rewindable

/-- Tells that a reader has read `seen` since the last drop, and that `cs` is ahead of it. -/
structure Reads (r : Rewindable) (seen cs : List Char) : Prop where
  covers : r.Covers r.pos
  view : r.cursor.view = seen
  ahead : r.cursor.ahead = cs

variable {r moved : Rewindable} {seen cs : List Char} {p : Char → Bool} {c : Char}
  {word : List Char}

theorem reads_ofChars (text : List Char) : (ofChars text).Reads [] text :=
  ⟨covers_before _, rfl, rfl⟩

namespace Reads

theorem inBuffer (h : r.Reads seen cs) : r.InBuffer r.pos := h.covers.inBuffer

/-- A reader that follows a cursor over some characters has read these, too. -/
theorem advance {α : Type} {outcome : α × Rewindable} {a : α} {w : List Char}
    (h : r.Reads seen (w ++ cs)) (hfollows : Follows r outcome (a, r.cursor.advance w.length)) :
    outcome.2.Reads (seen ++ w) cs where
  covers := hfollows.covers
  view := by
    rw [hfollows.cursor, Cursor.view_advance h.inBuffer.1, h.view, h.ahead, List.take_left]
  ahead := by rw [hfollows.cursor, Cursor.ahead_advance h.inBuffer.1, h.ahead, List.drop_left]

/-- A reader that follows a cursor which stays where it is has read what it had read. -/
theorem stay {α : Type} {outcome : α × Rewindable} {a : α} (h : r.Reads seen cs)
    (hfollows : Follows r outcome (a, r.cursor)) : outcome.2.Reads seen cs where
  covers := hfollows.covers
  view := by rw [hfollows.cursor, h.view]
  ahead := by rw [hfollows.cursor, h.ahead]

/-! ### The next character -/

/-- If there is no next character, the text is at its end. -/
theorem of_next_none (h : r.Reads seen cs) (heq : r.next = (none, moved)) :
    cs = [] ∧ moved.Reads seen [] := by
  have hnext := next_follows h.inBuffer
  rw [heq] at hnext
  cases hahead : r.cursor.ahead with
  | nil =>
    obtain ⟨-, hview, hend⟩ := Cursor.next_of_ahead_eq_nil h.inBuffer.1 hahead
    refine ⟨h.ahead ▸ hahead, hnext.covers, ?_, ?_⟩
    · rw [hnext.cursor, hview, h.view]
    · rw [hnext.cursor, hend]
  | cons d ds =>
    have hcurr := (Cursor.next_of_ahead_eq_cons h.inBuffer.1 hahead).2
    exact absurd (hnext.answer.trans hcurr) (by simp)

/-- If there is a next character, the reader has read it, and can go back. -/
theorem of_next_some (h : r.Reads seen cs) (heq : r.next = (some c, moved)) :
    ∃ ds, cs = c :: ds ∧ moved.Reads (seen ++ [c]) ds ∧ moved.prev.2.Reads seen (c :: ds) := by
  have hnext := next_follows h.inBuffer
  rw [heq] at hnext
  cases hahead : r.cursor.ahead with
  | nil =>
    have hcurr := (Cursor.next_of_ahead_eq_nil h.inBuffer.1 hahead).1
    exact absurd (hnext.answer.trans hcurr) (by simp)
  | cons d ds =>
    obtain ⟨hadvance, hcurr⟩ := Cursor.next_of_ahead_eq_cons h.inBuffer.1 hahead
    obtain rfl : c = d := Option.some.inj (hnext.answer.trans hcurr)
    obtain rfl : cs = c :: ds := h.ahead.symm.trans hahead
    rw [hadvance] at hnext
    -- A character was read, so the position has moved, and one step back undoes that.
    have hback := hnext.trans (prev_follows hnext.covers.inBuffer)
    have hprev : moved.cursor.prev = r.cursor := by
      rw [hnext.cursor]
      show r.cursor.moveTo (max (r.pos + 1 - 1) (-1)) = r.cursor
      rw [Int.add_sub_cancel, Int.max_eq_left h.inBuffer.1]
      rfl
    rw [hprev] at hback
    exact ⟨ds, rfl, h.advance (w := [c]) hnext, h.stay hback⟩

/-! ### Characters that meet a condition -/

theorem of_acceptIf_some (h : r.Reads seen cs) (heq : r.acceptIf p = (some c, moved)) :
    ∃ ds, cs = c :: ds ∧ p c = true ∧ moved.Reads (seen ++ [c]) ds := by
  have haccept := acceptIf_follows h.inBuffer p
  rw [heq] at haccept
  rcases r.cursor.acceptIf_cases p with ⟨d, ds, hahead, hd, hcursor⟩ | ⟨-, hcursor⟩
  · rw [hcursor] at haccept
    obtain rfl : c = d := Option.some.inj haccept.answer
    obtain rfl : cs = c :: ds := h.ahead.symm.trans hahead
    exact ⟨ds, rfl, hd, h.advance (w := [c]) haccept⟩
  · rw [hcursor] at haccept
    exact absurd haccept.answer (by simp)

theorem of_acceptIf_none (h : r.Reads seen cs) (heq : r.acceptIf p = (none, moved)) :
    cs.takeWhile p = [] ∧ moved.Reads seen cs := by
  have haccept := acceptIf_follows h.inBuffer p
  rw [heq] at haccept
  rcases r.cursor.acceptIf_cases p with ⟨d, ds, -, -, hcursor⟩ | ⟨hnone, hcursor⟩
  · rw [hcursor] at haccept
    exact absurd haccept.answer (by simp)
  · rw [hcursor] at haccept
    exact ⟨h.ahead ▸ hnone, h.stay haccept⟩

theorem of_acceptChar_true (h : r.Reads seen cs) (heq : r.acceptChar c = (true, moved)) :
    ∃ ds, cs = c :: ds ∧ moved.Reads (seen ++ [c]) ds := by
  obtain ⟨haccepted, rfl⟩ := Prod.mk.inj heq
  obtain ⟨d, hd⟩ := Option.isSome_iff_exists.1 haccepted
  obtain ⟨ds, rfl, hdc, hmoved⟩ := h.of_acceptIf_some (Prod.ext hd rfl)
  obtain rfl : d = c := eq_of_beq hdc
  exact ⟨ds, rfl, hmoved⟩

theorem of_acceptChar_false (h : r.Reads seen cs) (heq : r.acceptChar c = (false, moved)) :
    cs.head? ≠ some c ∧ moved.Reads seen cs := by
  obtain ⟨haccepted, rfl⟩ := Prod.mk.inj heq
  have hrefused : (r.acceptIf (· == c)).1 = none :=
    Option.not_isSome_iff_eq_none.1 (ne_true_of_eq_false haccepted)
  obtain ⟨hnone, hmoved⟩ := h.of_acceptIf_none (Prod.ext hrefused rfl)
  refine ⟨?_, hmoved⟩
  intro hhead
  obtain ⟨ds, rfl⟩ := List.head?_eq_some_iff.1 hhead
  simp at hnone

/-! ### Runs, words and identifiers -/

/-- A reader goes over the longest run, and tells whether there is one. -/
theorem of_advanceWhile {advanced : Bool} (h : r.Reads seen cs)
    (heq : r.advanceWhile p = (advanced, moved)) :
    advanced = !(cs.takeWhile p).isEmpty ∧
      moved.Reads (seen ++ cs.takeWhile p) (cs.dropWhile p) := by
  have hrun := advanceWhile_follows h.inBuffer p
  rw [heq, Cursor.advanceWhile, h.ahead] at hrun
  rw [← List.takeWhile_append_dropWhile (p := p) (l := cs)] at h
  exact ⟨hrun.answer, h.advance hrun⟩

/-- A reader that has not gone over a run has found none. -/
theorem of_advanceWhile_false (h : r.Reads seen cs) (heq : r.advanceWhile p = (false, moved)) :
    cs.takeWhile p = [] ∧ moved.Reads seen cs := by
  obtain ⟨hempty, hmoved⟩ := h.of_advanceWhile heq
  have hnone : cs.takeWhile p = [] := by simpa using hempty
  have hrest : cs.dropWhile p = cs := by
    simpa [hnone] using List.takeWhile_append_dropWhile (p := p) (l := cs)
  rw [hnone, List.append_nil, hrest] at hmoved
  exact ⟨hnone, hmoved⟩

theorem of_acceptWord_true (h : r.Reads seen cs) (heq : r.acceptWord word = (true, moved)) :
    ∃ ds, cs = word ++ ds ∧ moved.Reads (seen ++ word) ds := by
  have hword : Follows r (r.acceptWord word) (r.cursor.acceptWord word) :=
    acceptWord_follows h.inBuffer fun _ => h.covers
  rw [heq, Cursor.acceptWord, h.ahead] at hword
  split at hword
  · rename_i hpre
    obtain ⟨ds, rfl⟩ := List.isPrefixOf_iff_prefix.1 hpre
    exact ⟨ds, rfl, h.advance hword⟩
  · exact absurd hword.answer (by simp)

theorem of_acceptWord_false (h : r.Reads seen cs) (heq : r.acceptWord word = (false, moved)) :
    ¬word <+: cs ∧ moved.Reads seen cs := by
  have hword : Follows r (r.acceptWord word) (r.cursor.acceptWord word) :=
    acceptWord_follows h.inBuffer fun _ => h.covers
  rw [heq, Cursor.acceptWord, h.ahead] at hword
  split at hword
  · exact absurd hword.answer (by simp)
  · rename_i hpre
    exact ⟨fun hprefix => hpre (List.isPrefixOf_iff_prefix.2 hprefix), h.stay hword⟩

/-- A reader goes over the longest identifier. -/
theorem of_acceptIdentifier_true (h : r.Reads seen (c :: cs))
    (heq : r.acceptIdentifier = (true, moved)) :
    isIdentifierStart c = true ∧
      moved.Reads (seen ++ c :: cs.takeWhile isIdentifierRest) (cs.dropWhile isIdentifierRest) := by
  have hname := acceptIdentifier_follows h.inBuffer
  rw [heq, Cursor.acceptIdentifier, h.ahead] at hname
  dsimp only at hname
  split at hname
  · rename_i hstart
    rw [← List.takeWhile_append_dropWhile (p := isIdentifierRest) (l := cs)] at h
    rw [Nat.add_comm] at hname
    exact ⟨hstart, h.advance (w := c :: cs.takeWhile isIdentifierRest) hname⟩
  · exact absurd hname.answer (by simp)

theorem of_acceptIdentifier_false (h : r.Reads seen (c :: cs))
    (heq : r.acceptIdentifier = (false, moved)) :
    isIdentifierStart c = false ∧ moved.Reads seen (c :: cs) := by
  have hname := acceptIdentifier_follows h.inBuffer
  rw [heq, Cursor.acceptIdentifier, h.ahead] at hname
  dsimp only at hname
  split at hname
  · exact absurd hname.answer (by simp)
  · rename_i hstart
    exact ⟨eq_false_of_ne_true hstart, h.stay hname⟩

/-! ### Drops -/

/-- A drop takes what has been read. -/
theorem extract (h : r.Reads seen cs) : r.extract = (seen, r.ignore) ∧ r.ignore.Reads [] cs := by
  have hcursor : r.ignore.cursor = .ofChars cs := by
    rw [cursor_ignore h.covers, Cursor.drop_eq, h.ahead]
  refine ⟨Prod.ext ((view_eq_view_cursor h.covers).trans h.view) rfl, covers_before _, ?_, ?_⟩
  · rw [hcursor]
    rfl
  · rw [hcursor]
    rfl

end Reads

end Rewindable

end Earley
