/-
  `Rank` — descending lists of bounded length.

  A search that backtracks in several places at once is measured by a list of numbers, one for
  each choice that is still open, the oldest choice first. A list is below another if it has the
  smaller number at the first place where they differ, or ends where the other goes on. Without a
  bound on the length such lists can descend for ever (`[1]`, `[0, 1]`, `[0, 0, 1]`, …); with one
  they cannot (`wellFounded_below`). A `Rank` is such a bound together with a list, and descends
  if the bound shrinks, or stays while the list descends within it.
-/
namespace Earley

/-- A bound on the length of a list, and the list. -/
structure Rank where
  bound : Nat
  digits : List Nat

namespace Rank

/-- Tells that the first list is below the second one, at one of the first `bound` places. -/
def Below : (bound : Nat) → List Nat → List Nat → Prop
  | 0, _, _ => False
  | _ + 1, _, [] => False
  | _ + 1, [], _ :: _ => True
  | bound + 1, a :: as, b :: bs => a < b ∨ a = b ∧ Below bound as bs

theorem acc_below_nil {bound : Nat} : Acc (Below (bound + 1)) [] :=
  ⟨_, fun as h => by cases as <;> exact h.elim⟩

/-- A list is accessible if its head is accessible with every tail that is. -/
theorem acc_below_cons {bound : Nat} (wf : ∀ as, Acc (Below bound) as) (a : Nat) :
    ∀ as, Acc (Below (bound + 1)) (a :: as) := by
  induction a using Nat.strongRecOn with
  | ind a iha =>
    intro as
    induction wf as with
    | intro as _ ihas =>
      refine ⟨_, fun cs h => ?_⟩
      cases cs with
      | nil => exact acc_below_nil
      | cons c cs =>
        rcases h with h | ⟨rfl, h⟩
        · exact iha c h cs
        · exact ihas cs h

theorem wellFounded_below (bound : Nat) : WellFounded (Below bound) := by
  induction bound with
  | zero => exact ⟨fun _ => ⟨_, fun _ h => h.elim⟩⟩
  | succ bound ih =>
    refine ⟨fun as => ?_⟩
    cases as with
    | nil => exact acc_below_nil
    | cons a as => exact acc_below_cons ih.apply a as

/-- The order of ranks: the bound may shrink, and else the list descends within it. -/
def Descends (r s : Rank) : Prop :=
  r.bound < s.bound ∨ r.bound = s.bound ∧ Below s.bound r.digits s.digits

theorem wellFounded_descends : WellFounded Descends := by
  refine ⟨fun ⟨bound, digits⟩ => ?_⟩
  induction bound using Nat.strongRecOn generalizing digits with
  | ind bound ihbound =>
    induction (wellFounded_below bound).apply digits with
    | intro digits _ ihdigits =>
      refine ⟨_, fun ⟨bound', digits'⟩ h => ?_⟩
      rcases h with h | ⟨rfl, h⟩
      · exact ihbound bound' h digits'
      · exact ihdigits digits' h

instance : WellFoundedRelation Rank := ⟨Descends, wellFounded_descends⟩

/-! ### Ways to descend -/

theorem below_append {bound : Nat} {as bs : List Nat} (front : List Nat) (h : Below bound as bs) :
    Below (front.length + bound) (front ++ as) (front ++ bs) := by
  induction front with
  | nil => simpa using h
  | cons c front ih =>
    rw [List.length_cons, Nat.add_right_comm]
    exact Or.inr ⟨rfl, ih⟩

theorem below_mono {bound bound' : Nat} (hle : bound ≤ bound') {as bs : List Nat}
    (h : Below bound as bs) : Below bound' as bs := by
  induction bound generalizing bound' as bs with
  | zero => exact h.elim
  | succ bound ih =>
    obtain ⟨bound', rfl⟩ : ∃ k, bound' = k + 1 := ⟨bound' - 1, by omega⟩
    cases bs with
    | nil => exact h.elim
    | cons b bs =>
      cases as with
      | nil => trivial
      | cons a as =>
        rcases h with h | ⟨rfl, h⟩
        · exact Or.inl h
        · exact Or.inr ⟨rfl, ih (by omega) h⟩

/-- A choice becomes smaller; what follows it is free. -/
theorem descends_of_lt {bound bound' a b : Nat} (front as bs : List Nat) (h : a < b)
    (hbound : bound' ≤ bound) (hlength : (front ++ b :: bs).length ≤ bound) :
    Descends ⟨bound', front ++ a :: as⟩ ⟨bound, front ++ b :: bs⟩ := by
  have hbelow : Below (front.length + 1) (front ++ a :: as) (front ++ b :: bs) :=
    below_append front (Or.inl h)
  have hplace : front.length + 1 ≤ bound := by
    rw [List.length_append, List.length_cons] at hlength
    omega
  rcases Nat.lt_or_eq_of_le hbound with hlt | rfl
  · exact Or.inl hlt
  · exact Or.inr ⟨rfl, below_mono hplace hbelow⟩

/-- The latest choices are given up. -/
theorem descends_of_drop {bound bound' b : Nat} (front bs : List Nat)
    (hbound : bound' ≤ bound) (hlength : (front ++ b :: bs).length ≤ bound) :
    Descends ⟨bound', front⟩ ⟨bound, front ++ b :: bs⟩ := by
  have hbelow : Below (front.length + 1) (front ++ []) (front ++ b :: bs) :=
    below_append front trivial
  rw [List.append_nil] at hbelow
  have hplace : front.length + 1 ≤ bound := by
    rw [List.length_append, List.length_cons] at hlength
    omega
  rcases Nat.lt_or_eq_of_le hbound with hlt | rfl
  · exact Or.inl hlt
  · exact Or.inr ⟨rfl, below_mono hplace hbelow⟩

end Rank

end Earley
