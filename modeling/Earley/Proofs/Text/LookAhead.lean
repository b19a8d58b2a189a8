/-
  What a rewindable reader shows behind a call that accepts nothing.

  A call that looks ahead takes characters into the buffer and comes back to where it was. Behind it
  the buffer covers the position (`perform_cases`), so the reader shows what its cursor shows.
  Before it that need not be so: a position at the end of the buffer can be asked for while there
  are characters in the source, and there the reader shows no current character although its cursor
  has one (`Stranded`). No other call brings a reader there (`exists_of_stranded`).

  So a call that accepts nothing keeps the position from every state, and it keeps the current
  character and the view just from those that are not stranded (`accepting_nothing_keeps`).
-/
import Earley.Proofs.Text.Rewindable

namespace Earley

/-! ### Calls that accept nothing -/

/-- Tells that a call with this answer has only looked ahead, or has accepted nothing. -/
def Call.AcceptsNothing : Call → Answer → Prop
  | .peek, _ => True
  | .accept _, answer | .acceptAny _, answer | .acceptAnyOf _, answer => answer = .character none
  | .acceptChar _, answer | .acceptWord _, answer | .acceptIdentifier, answer =>
    answer = .flag false
  | _, _ => False

namespace Cursor

variable {c : Cursor}

theorem acceptIf_eq_of_none {p : Char → Bool} (h : (c.acceptIf p).1 = none) :
    (c.acceptIf p).2 = c := by
  rcases c.acceptIf_cases p with ⟨d, ds, -, -, heq⟩ | ⟨-, heq⟩
  · rw [heq] at h
    cases h
  · rw [heq]

/-- A cursor is left alone by a call that accepts nothing. -/
theorem perform_of_acceptsNothing {call : Call} (h : call.AcceptsNothing (c.perform call).1) :
    (c.perform call).2 = c := by
  cases call with
  | peek => rfl
  | accept | acceptAny | acceptAnyOf => exact acceptIf_eq_of_none (Answer.character.inj h)
  | acceptChar d =>
    have hnone : (c.acceptIf (· == d)).1.isSome = false := Answer.flag.inj h
    exact acceptIf_eq_of_none (by simpa using hnone)
  | acceptWord word =>
    have hrefused : (c.acceptWord word.toList).1 = false := Answer.flag.inj h
    show (c.acceptWord word.toList).2 = c
    unfold acceptWord at hrefused ⊢
    split at hrefused
    · cases hrefused
    · next hpre => rw [if_neg hpre]
  | acceptIdentifier =>
    have hrefused : c.acceptIdentifier.1 = false := Answer.flag.inj h
    show c.acceptIdentifier.2 = c
    unfold acceptIdentifier at hrefused ⊢
    split
    · rfl
    · next hahead =>
      rw [hahead] at hrefused
      dsimp only at hrefused ⊢
      split at hrefused
      · cases hrefused
      · next hd => rw [if_neg hd]
  | _ => exact h.elim

end Cursor

namespace Rewindable

variable {r : Rewindable} {call : Call} {calls : List Call}

/-! ### Where calls lead -/

/-- A call changes nothing at all, or the buffer covers the position behind it, or it asks for a
position of the buffer. -/
theorem perform_cases (h : r.InBuffer r.pos) (call : Call) :
    (r.perform call).2 = r ∨ (r.perform call).2.Covers (r.perform call).2.pos ∨
      ∃ target, call = .setPos target ∧ (r.perform call).2 = { r with pos := target } ∧
        r.InBuffer target := by
  cases call with
  | curr | pos | view => exact Or.inl rfl
  | next => exact Or.inr (Or.inl (next_follows h).covers)
  | prev => exact Or.inr (Or.inl (prev_follows h).covers)
  | peek => exact Or.inr (Or.inl (peek_follows h).covers)
  | ignore | extract | extractText => exact Or.inr (Or.inl (covers_before _))
  | accept | acceptAny | acceptChar | acceptAnyOf =>
    exact Or.inr (Or.inl (acceptIf_follows h _).covers)
  | skipAll | untilAny | skipBlanks => exact Or.inr (Or.inl (advanceWhile_follows h _).covers)
  | acceptIdentifier => exact Or.inr (Or.inl (acceptIdentifier_follows h).covers)
  | acceptWord word =>
    by_cases hword : word.toList = []
    · refine Or.inl ?_
      show (r.acceptWord word.toList).2 = r
      rw [hword]
      rfl
    · exact Or.inr (Or.inl (acceptWord_follows h (absurd · hword)).covers)
  | setPos target =>
    show (r.setPos target).2 = r ∨ _
    by_cases hout : target < -1 ∨ r.buffer.size < target
    · exact Or.inl (by rw [setPos, if_pos hout])
    · refine Or.inr (Or.inr ⟨target, rfl, ?_, by omega, by omega⟩)
      show (r.setPos target).2 = _
      rw [setPos, if_neg hout]

theorem inBuffer_perform (h : r.InBuffer r.pos) (call : Call) :
    (r.perform call).2.InBuffer (r.perform call).2.pos := by
  rcases perform_cases h call with hsame | hcovers | ⟨target, -, hmoved, htarget⟩
  · rwa [hsame]
  · exact hcovers.inBuffer
  · rwa [hmoved]

/-- Whatever calls were made, a reader stands in its buffer. -/
theorem inBuffer_replies (h : r.InBuffer r.pos) (calls : List Call) :
    (replies reply r calls).2.InBuffer (replies reply r calls).2.pos := by
  induction calls generalizing r with
  | nil => exact h
  | cons call calls ih => exact ih (inBuffer_perform h call)

/-! ### Stranded readers -/

/-- Tells that a reader stands at the end of its buffer although there are characters left in the
source. -/
def Stranded (r : Rewindable) : Prop := r.pos = r.buffer.size ∧ r.source ≠ []

instance : Decidable r.Stranded := inferInstanceAs (Decidable (_ ∧ _))

theorem covers_iff_not_stranded (h : r.InBuffer r.pos) : r.Covers r.pos ↔ ¬r.Stranded := by
  rw [Covers, Stranded, not_and, ne_eq, Decidable.not_not]
  constructor
  · rintro ⟨-, hlt | ⟨-, hdry⟩⟩ hend
    · omega
    · exact hdry
  · intro hdry
    exact ⟨h.1, (Int.lt_or_eq_of_le h.2).imp_right fun hend => ⟨hend, hdry hend⟩⟩

/-- A call strands a reader only if it asks for the end of the buffer. -/
theorem eq_setPos_of_stranded (h : r.InBuffer r.pos) (hbefore : ¬r.Stranded)
    (hstranded : (r.perform call).2.Stranded) :
    call = .setPos r.buffer.size ∧ r.source ≠ [] := by
  rcases perform_cases h call with hsame | hcovers | ⟨target, rfl, hmoved, -⟩
  · rw [hsame] at hstranded
    exact absurd hstranded hbefore
  · exact absurd hstranded ((covers_iff_not_stranded hcovers.inBuffer).1 hcovers)
  · rw [hmoved] at hstranded
    obtain ⟨hend, hsource⟩ := hstranded
    exact ⟨congrArg Call.setPos hend, hsource⟩

/-- Behind calls that have stranded a reader there is one of them that asked for the end of the
buffer while there were characters left. -/
theorem exists_of_stranded (h : r.InBuffer r.pos) (hbefore : ¬r.Stranded)
    (hstranded : (replies reply r calls).2.Stranded) :
    ∃ before after, (replies reply r before).2.source ≠ [] ∧
      calls = before ++ .setPos (replies reply r before).2.buffer.size :: after := by
  induction calls generalizing r with
  | nil => exact absurd hstranded hbefore
  | cons call calls ih =>
    by_cases hnext : (r.perform call).2.Stranded
    · obtain ⟨rfl, hsource⟩ := eq_setPos_of_stranded h hbefore hnext
      exact ⟨[], calls, hsource, rfl⟩
    · obtain ⟨before, after, hsource, rfl⟩ := ih (inBuffer_perform h call) hnext hstranded
      exact ⟨call :: before, after, hsource, rfl⟩

/-- The cursor of a stranded reader stands at the first character of the source, which the reader
does not show. -/
theorem Stranded.exists_cons (h : r.Stranded) :
    ∃ c source, r.source = c :: source ∧ r.curr = none ∧ r.cursor.curr = some c ∧
      r.cursor.view = r.view ++ [c] := by
  obtain ⟨hpos, hsource⟩ := h
  obtain ⟨c, source, hc⟩ := List.exists_cons_of_ne_nil hsource
  have hplace : r.pos.toNat = r.buffer.size := by omega
  have hremaining : r.remaining = r.buffer.toList ++ c :: source := by rw [remaining, hc]
  refine ⟨c, source, hc, ?_, ?_, ?_⟩
  · rw [curr, if_neg (by omega), hplace, Array.getElem?_size]
  · rw [Cursor.curr, pos_cursor, if_neg (by omega), hplace, rest_cursor, hremaining,
      List.getElem?_append_right (by simp)]
    simp
  · have hsize : r.buffer.toList.length = r.buffer.size := Array.length_toList
    have hlength : r.remaining.length = r.buffer.toList.length + (source.length + 1) := by
      rw [hremaining, List.length_append, List.length_cons]
    have hviewed : r.viewed = r.buffer.toList.length := by
      rw [viewed]
      omega
    have hcursor : r.cursor.viewed = r.buffer.toList.length + 1 := by
      rw [Cursor.viewed, rest_cursor, pos_cursor]
      omega
    rw [Cursor.view, hcursor, rest_cursor, hremaining, view, hviewed, List.take_length,
      List.take_length_add_append]
    rfl

/-! ### Behind a call that accepts nothing -/

/-- A call that accepts nothing does to a reader what it does to its cursor, wherever the buffer
ends. -/
theorem follows_of_acceptsNothing (h : r.InBuffer r.pos)
    (hnothing : call.AcceptsNothing (r.perform call).1) :
    Follows r (r.perform call) (r.cursor.perform call) := by
  cases call with
  | peek => exact (peek_follows h).map Answer.character
  | accept | acceptAny | acceptAnyOf => exact (acceptIf_follows h _).map Answer.character
  | acceptChar => exact (acceptIf_follows h _).map fun accepted => Answer.flag accepted.isSome
  | acceptIdentifier => exact (acceptIdentifier_follows h).map Answer.flag
  | acceptWord word =>
    refine (acceptWord_follows h fun hword => ?_).map Answer.flag
    -- The empty word is always accepted.
    have hrefused : (r.acceptWord word.toList).1 = false := Answer.flag.inj hnothing
    rw [hword] at hrefused
    cases hrefused
  | _ => exact hnothing.elim

/-- Behind a call that accepts nothing the reader stands where it was, and shows what its cursor
shows there. -/
theorem shows_cursor_of_acceptsNothing (h : r.InBuffer r.pos)
    (hnothing : call.AcceptsNothing (r.perform call).1) :
    (r.perform call).2.pos = r.pos ∧ (r.perform call).2.curr = r.cursor.curr ∧
      (r.perform call).2.view = r.cursor.view := by
  have hfollows := follows_of_acceptsNothing h hnothing
  have hcursor : (r.perform call).2.cursor = r.cursor := by
    rw [hfollows.answer] at hnothing
    exact hfollows.cursor.trans (Cursor.perform_of_acceptsNothing hnothing)
  refine ⟨congrArg Cursor.pos hcursor, ?_, ?_⟩
  · rw [curr_eq_curr_cursor hfollows.covers, hcursor]
  · rw [view_eq_view_cursor hfollows.covers, hcursor]

end Rewindable

open Rewindable in
/-- **What a call that accepts nothing keeps.** Whatever calls were made before, it keeps the
position, and it keeps the current character and the view just if the reader does not stand at the
end of its buffer with characters left in the source. From there, where there was no current
character, it shows the first of these characters as the current one and behind what was in view. A
reader gets there only by a call for that very position. -/
theorem accepting_nothing_keeps (text : List Char) (calls : List Call) (call : Call) :
    let r := (replies Rewindable.reply (.ofChars text) calls).2
    let behind := (r.perform call).2
    (call.AcceptsNothing (r.perform call).1 →
      behind.pos = r.pos ∧ (behind.curr = r.curr ∧ behind.view = r.view ↔ ¬r.Stranded) ∧
        (r.Stranded → ∃ c source, r.source = c :: source ∧ r.curr = none ∧
          behind.curr = some c ∧ behind.view = r.view ++ [c])) ∧
    (r.Stranded → ∃ before after,
      (replies Rewindable.reply (.ofChars text) before).2.source ≠ [] ∧
        calls = before ++
          .setPos (replies Rewindable.reply (.ofChars text) before).2.buffer.size :: after) := by
  have hstart : (Rewindable.ofChars text).InBuffer (Rewindable.ofChars text).pos :=
    (covers_before _).inBuffer
  have hunstranded : ¬(Rewindable.ofChars text).Stranded :=
    (covers_iff_not_stranded hstart).1 (covers_before _)
  intro r behind
  have hr : r.InBuffer r.pos := inBuffer_replies hstart calls
  refine ⟨fun hnothing => ?_, exists_of_stranded hstart hunstranded⟩
  obtain ⟨hpos, hcurr, hview⟩ := shows_cursor_of_acceptsNothing hr hnothing
  refine ⟨hpos, ⟨?_, fun hright => ?_⟩, fun hstranded => ?_⟩
  · rintro ⟨hsame, -⟩ hstranded
    obtain ⟨c, source, -, hnone, hsome, -⟩ := hstranded.exists_cons
    rw [hcurr, hsome, hnone] at hsame
    cases hsame
  · have hcovers := (covers_iff_not_stranded hr).2 hright
    exact ⟨hcurr.trans (curr_eq_curr_cursor hcovers).symm,
      hview.trans (view_eq_view_cursor hcovers).symm⟩
  · obtain ⟨c, source, hsource, hnone, hsome, hmore⟩ := hstranded.exists_cons
    exact ⟨c, source, hsource, hnone, hcurr.trans hsome, hview.trans hmore⟩

/-- A call for a position that is not there yet, and one that looks ahead from it. -/
def overshootingCalls : List Call := [.setPos 0, .peek]

/-- Looking ahead from the end of an empty buffer brings a current character into view. -/
theorem replies_overshootingCalls :
    (replies Rewindable.reply (.ofChars ['a', 'b']) overshootingCalls).1 =
      [⟨.flag true, 0, none, []⟩, ⟨.character (some 'b'), 0, some 'a', ['a']⟩] := by
  decide +kernel

theorem accepting_nothing_keeps_overshooting :
    let r := (replies Rewindable.reply (.ofChars ['a', 'b']) [.setPos 0]).2
    let behind := (r.perform (.acceptWord "ab")).2
    (r.perform (.acceptWord "ab")).1 = .flag false ∧ r.Stranded ∧ behind.pos = r.pos ∧
      ¬(behind.curr = r.curr ∧ behind.view = r.view) ∧
      ∃ c source, r.source = c :: source ∧ r.curr = none ∧ behind.curr = some c ∧
        behind.view = r.view ++ [c] := by
  intro r behind
  have hrefused : (r.perform (.acceptWord "ab")).1 = .flag false := by decide +kernel
  have hstranded : r.Stranded := by decide +kernel
  obtain ⟨hkeeps, -⟩ := accepting_nothing_keeps ['a', 'b'] [.setPos 0] (.acceptWord "ab")
  obtain ⟨hpos, hsame, hshown⟩ := hkeeps hrefused
  exact ⟨hrefused, hstranded, hpos, fun h => hsame.1 h hstranded, hshown hstranded⟩

end Earley
