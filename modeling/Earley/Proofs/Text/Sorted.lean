/-
  Texts that are sorted and stripped of repeats.

  `sortDistinct` gives a strictly ascending list with the same members. After sorting, equal texts
  stand side by side, so it is enough that `eraseReps` keeps one of each run of equal neighbours.
-/
import Earley.Text.Sorted
import Mathlib.Data.List.Basic

namespace Earley

/-! ### Equal neighbours -/

theorem eraseReps_loop {α : Type} [BEq α] (a : α) (xs acc : List α) :
    List.eraseRepsBy.loop (· == ·) a xs acc = acc.reverse ++ (a :: xs).eraseReps := by
  induction xs generalizing a acc with
  | nil => simp [List.eraseReps, List.eraseRepsBy, List.eraseRepsBy.loop]
  | cons b xs ih =>
    rw [List.eraseReps, List.eraseRepsBy, List.eraseRepsBy.loop, List.eraseRepsBy.loop]
    cases a == b with
    | true => rw [ih a acc, ih a [], List.reverse_nil, List.nil_append]
    | false => rw [ih b (a :: acc), ih b [a]]; simp

/-- Of two equal neighbours one is kept. -/
theorem eraseReps_cons_cons (s t : String) (texts : List String) :
    (s :: t :: texts).eraseReps =
      if s = t then (t :: texts).eraseReps else s :: (t :: texts).eraseReps := by
  rw [List.eraseReps, List.eraseRepsBy, List.eraseRepsBy.loop]
  by_cases h : s = t
  · subst h
    rw [beq_self_eq_true, if_pos rfl]
    exact eraseReps_loop s texts []
  · rw [beq_eq_false_iff_ne.2 h, if_neg h]
    exact eraseReps_loop t texts [s]

theorem mem_eraseReps_iff {s : String} {texts : List String} :
    s ∈ texts.eraseReps ↔ s ∈ texts := by
  induction texts with
  | nil => rfl
  | cons t texts ih =>
    cases texts with
    | nil => rfl
    | cons u texts =>
      rw [eraseReps_cons_cons]
      split
      · next h => rw [ih, h, List.mem_cons (b := u) (l := u :: texts), List.mem_cons]; tauto
      · rw [List.mem_cons, ih, List.mem_cons (l := u :: texts)]

/-- Without repeats an ascending list is strictly ascending. -/
theorem pairwise_lt_eraseReps {texts : List String} (h : texts.Pairwise (· ≤ ·)) :
    texts.eraseReps.Pairwise (· < ·) := by
  induction texts with
  | nil => exact List.Pairwise.nil
  | cons s texts ih =>
    obtain ⟨hle, htail⟩ := List.pairwise_cons.1 h
    cases texts with
    | nil => exact List.pairwise_singleton _ s
    | cons t texts =>
      rw [eraseReps_cons_cons]
      split
      · exact ih htail
      · next hne =>
        refine List.pairwise_cons.2 ⟨fun u hu => ?_, ih htail⟩
        -- The next text is above `s`, and all others are not below the next.
        have hst : ¬t ≤ s := fun hts => hne (String.le_antisymm (hle t List.mem_cons_self) hts)
        have htu : t ≤ u := by
          rcases List.mem_cons.1 (mem_eraseReps_iff.1 hu) with rfl | hmem
          · exact String.le_refl u
          · exact (List.pairwise_cons.1 htail).1 u hmem
        rw [← Decidable.not_not (p := s < u), String.not_lt]
        exact fun hus => hst (String.le_trans htu hus)

/-! ### Sorted texts -/

theorem mem_sortDistinct_iff {s : String} {texts : List String} :
    s ∈ sortDistinct texts ↔ s ∈ texts := by
  rw [sortDistinct, mem_eraseReps_iff, List.mem_mergeSort]

theorem pairwise_sortDistinct (texts : List String) :
    (sortDistinct texts).Pairwise (· < ·) := by
  have hsorted : (texts.mergeSort fun s t => decide (s ≤ t)).Pairwise
      fun s t => decide (s ≤ t) = true := by
    refine List.pairwise_mergeSort (fun s t u hst htu => ?_) (fun s t => ?_) texts
    · exact decide_eq_true (String.le_trans (of_decide_eq_true hst) (of_decide_eq_true htu))
    · rw [Bool.or_eq_true, decide_eq_true_iff, decide_eq_true_iff]
      exact String.le_total s t
  exact pairwise_lt_eraseReps (hsorted.imp of_decide_eq_true)

end Earley
