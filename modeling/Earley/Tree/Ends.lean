/-
  `Ends` — positions to be tried one after another, from the farthest to the nearest.

  The ends of the matches of a non-terminal from one position are kept in ascending order, as they
  are found. What is left to be tried is always a front part of them: those up to a limit, and
  after each trial one less. So it is told by the number of ends that are left, and nothing is
  copied; `upTo` finds the number for a limit by halving.

  `toList` is the view: `next?` takes the first position off it.
-/
namespace Earley

/-- The first `count` of some positions, the last of them to be tried first. -/
structure Ends where
  /-- Positions in ascending order. -/
  stops : Array Nat
  /-- How many of them are left, from the front. -/
  count : Nat
  count_le_size : count ≤ stops.size

namespace Ends

/-- No positions. -/
def empty : Ends := ⟨#[], 0, Nat.le_refl _⟩

/-- A single position. -/
def single (stop : Nat) : Ends := ⟨#[stop], 1, Nat.le_refl _⟩

/-- The positions that are left, in the order in which they are tried. -/
def toList (e : Ends) : List Nat := (e.stops.toList.take e.count).reverse

/-- The position to be tried, and those that are left behind it. -/
def next? : Ends → Option (Nat × Ends)
  | ⟨_, 0, _⟩ => none
  | ⟨stops, count + 1, h⟩ => some (stops[count], ⟨stops, count, Nat.le_of_succ_le h⟩)

/-- A trial uses one position up. -/
theorem count_of_next? {e e' : Ends} {stop : Nat} (h : e.next? = some (stop, e')) :
    e.count = e'.count + 1 := by
  obtain ⟨stops, count, hle⟩ := e
  cases count with
  | zero => cases h
  | succ count =>
    cases h
    rfl

theorem toList_of_next?_eq_none {e : Ends} (h : e.next? = none) : e.toList = [] := by
  obtain ⟨stops, count, hle⟩ := e
  cases count with
  | zero => rfl
  | succ count => cases h

theorem toList_of_next?_eq_some {e e' : Ends} {stop : Nat} (h : e.next? = some (stop, e')) :
    e.toList = stop :: e'.toList := by
  obtain ⟨stops, count, hle⟩ := e
  cases count with
  | zero => cases h
  | succ count =>
    cases h
    have hlt : count < stops.toList.length := hle
    simp [toList, List.take_succ_eq_append_getElem hlt]

/-! ### Limits -/

/-- How many of the ascending positions are up to `limit`, if it is known that `low` are and that
those from the place `high` on are not. -/
def countUpTo (stops : Array Nat) (limit low high : Nat) : Nat :=
  if low < high then
    let middle := (low + high) / 2
    if stops.getD middle 0 ≤ limit then countUpTo stops limit (middle + 1) high
    else countUpTo stops limit low middle
  else low
termination_by high - low

theorem countUpTo_le (stops : Array Nat) (limit low high : Nat) (h : low ≤ high) :
    countUpTo stops limit low high ≤ high := by
  fun_induction countUpTo stops limit low high with
  | case1 low high hlt middle _ ih => exact ih (by omega)
  | case2 low high hlt middle _ ih => exact Nat.le_trans (ih (by omega)) (by omega)
  | case3 low high _ => exact h

/-- Those of some ascending positions that are not beyond `limit`. -/
def upTo (stops : Array Nat) (limit : Nat) : Ends :=
  ⟨stops, countUpTo stops limit 0 stops.size, countUpTo_le _ _ _ _ (Nat.zero_le _)⟩

end Ends

end Earley
