/-
  `StateSet` — the tables of a state set mirror its items.

  Whatever items are inserted, one after another, each stands once in the list, where it was first
  inserted; the tables answer as a search through that list would (`StateSet.Consistent`).
  `items_insert` is the only fact about the list itself that recognition needs.
-/
import Earley.Chart.StateSet
import Mathlib.Data.List.Basic

namespace Earley

namespace StateSet

variable {g : Grammar} {s : StateSet} {item : Item}

/-- The tables of a state set answer as a search through its items would. -/
structure Consistent (g : Grammar) (s : StateSet) : Prop where
  mem_seen_iff : ∀ item, item ∈ s.seen ↔ item ∈ s.items
  nodup : s.items.toList.Nodup
  /-- The places that are kept for a non-terminal are places in the list. -/
  places_lt : ∀ id, ∀ place ∈ s.waiting.getD id #[], place < s.items.size
  waitingOn_eq : ∀ id, s.waitingOn id =
    s.items.toList.filter fun item => item.nextSymbol? g == some (.nonterm id)
  mem_completed_iff : ∀ head start, (head, start) ∈ s.completed ↔
    ∃ item ∈ s.items, item.nextSymbol? g = none ∧ item.head g = head ∧ item.start = start

theorem consistent_empty : empty.Consistent g where
  mem_seen_iff := by simp [empty]
  nodup := by simp [empty]
  places_lt := by simp [empty]
  waitingOn_eq := by simp [empty, waitingOn]
  mem_completed_iff := by simp [empty]

theorem Consistent.contains_iff (h : s.Consistent g) :
    s.contains item = true ↔ item ∈ s.items := by
  rw [contains, Std.HashSet.contains_iff_mem, h.mem_seen_iff]

theorem Consistent.mem_waitingOn_iff (h : s.Consistent g) {id : Nat} :
    item ∈ s.waitingOn id ↔ item ∈ s.items ∧ item.nextSymbol? g = some (.nonterm id) := by
  rw [h.waitingOn_eq, List.mem_filter, Array.mem_toList_iff, beq_iff_eq]

theorem Consistent.hasCompleted_iff (h : s.Consistent g) {head start : Nat} :
    s.hasCompleted head start = true ↔
      ∃ item ∈ s.items, item.nextSymbol? g = none ∧ item.head g = head ∧ item.start = start := by
  rw [hasCompleted, Std.HashSet.contains_iff_mem, h.mem_completed_iff]

/-! ### Completions -/

theorem mem_completions_iff {head start : Nat} :
    (head, start) ∈ s.completions ↔ s.hasCompleted head start = true := by
  rw [completions, Std.HashSet.mem_toList, hasCompleted, Std.HashSet.contains_iff_mem]

theorem nodup_completions (s : StateSet) : s.completions.Nodup :=
  s.completed.distinct_toList.imp fun h => by simpa using h

/-! ### Adding an item -/

theorem items_push (g : Grammar) (s : StateSet) (item : Item) :
    (s.push g item).items = s.items.push item := by
  unfold push
  dsimp only
  split <;> rfl

theorem seen_push (g : Grammar) (s : StateSet) (item : Item) :
    (s.push g item).seen = s.seen.insert item := by
  unfold push
  dsimp only
  split <;> rfl

theorem getD_waiting_push (g : Grammar) (s : StateSet) (item : Item) (id : Nat) :
    (s.push g item).waiting.getD id #[] =
      if item.nextSymbol? g = some (.nonterm id) then (s.waiting.getD id #[]).push s.items.size
      else s.waiting.getD id #[] := by
  unfold push
  dsimp only
  split
  · rename_i id' hnext
    rw [hnext, Std.HashMap.getD_alter]
    by_cases hid : id' = id
    · subst hid
      simp [enlist, Std.HashMap.getD_eq_getD_getElem?]
    · simp [hid]
  · rename_i t hnext
    simp [hnext]
  · rename_i hnext
    simp [hnext]

theorem mem_completed_push {g : Grammar} {s : StateSet} {item : Item} {head start : Nat} :
    (head, start) ∈ (s.push g item).completed ↔
      (head, start) ∈ s.completed ∨
        item.nextSymbol? g = none ∧ item.head g = head ∧ item.start = start := by
  unfold push
  dsimp only
  split
  · rename_i hnext
    simp [hnext]
  · rename_i hnext
    simp [hnext]
  · rename_i hnext
    rw [Std.HashSet.mem_insert, beq_iff_eq, Prod.mk.injEq]
    simp [hnext, or_comm]

/-- The items that wait for a non-terminal are read off the list by their places. -/
theorem filterMap_push {items : Array Item} {places : List Nat} (item : Item)
    (h : ∀ place ∈ places, place < items.size) :
    places.filterMap ((items.push item)[·]?) = places.filterMap (items[·]?) := by
  refine List.filterMap_congr fun place hplace => ?_
  rw [Array.getElem?_push, if_neg (Nat.ne_of_lt (h place hplace))]

theorem Consistent.push (h : s.Consistent g) (hnew : item ∉ s.items) :
    (s.push g item).Consistent g where
  mem_seen_iff item' := by
    rw [seen_push, items_push, Std.HashSet.mem_insert, Array.mem_push, h.mem_seen_iff, beq_iff_eq,
      or_comm, eq_comm]
  nodup := by
    rw [items_push, Array.toList_push, List.nodup_append]
    refine ⟨h.nodup, List.pairwise_singleton _ _, ?_⟩
    rintro item' hitem' _ hmem rfl
    rw [List.mem_singleton] at hmem
    subst hmem
    exact hnew (Array.mem_toList_iff.1 hitem')
  places_lt id place hplace := by
    rw [items_push, Array.size_push]
    rw [getD_waiting_push] at hplace
    split at hplace
    · rcases Array.mem_push.1 hplace with hplace | rfl
      · exact Nat.lt_succ_of_lt (h.places_lt id place hplace)
      · exact Nat.lt_succ_self _
    · exact Nat.lt_succ_of_lt (h.places_lt id place hplace)
  waitingOn_eq id := by
    -- The places that were kept before are read off the longer list as they were.
    have hplaces : ∀ place ∈ (s.waiting.getD id #[]).toList, place < s.items.size :=
      fun place hplace => h.places_lt id place (Array.mem_toList_iff.1 hplace)
    have hold := h.waitingOn_eq id
    rw [waitingOn] at hold
    rw [waitingOn, getD_waiting_push, items_push, Array.toList_push, List.filter_append, ← hold,
      ← filterMap_push item hplaces]
    split
    · -- The new place is the last one, so the new item comes last among those that wait.
      rename_i hnext
      rw [Array.toList_push, List.filterMap_append]
      simp [hnext]
    · rename_i hnext
      simp [hnext]
  mem_completed_iff head start := by
    rw [mem_completed_push, h.mem_completed_iff, items_push]
    simp only [Array.mem_push, or_and_right, exists_or, exists_eq_left]

/-! ### Inserting an item -/

theorem Consistent.insert_eq_ite (h : s.Consistent g) :
    s.insert g item = if item ∈ s.items then s else s.push g item := by
  rw [insert, tryInsert]
  by_cases hmem : item ∈ s.items
  · rw [if_pos (h.contains_iff.2 hmem), if_pos hmem]
  · rw [if_neg (mt h.contains_iff.1 hmem), if_neg hmem]

theorem Consistent.insert (h : s.Consistent g) : (s.insert g item).Consistent g := by
  rw [h.insert_eq_ite]
  split
  · exact h
  · rename_i hnew
    exact h.push hnew

theorem Consistent.items_insert (h : s.Consistent g) :
    (s.insert g item).items = if item ∈ s.items then s.items else s.items.push item := by
  rw [h.insert_eq_ite]
  split
  · rfl
  · exact items_push g s item

theorem Consistent.mem_insert_iff (h : s.Consistent g) {item' : Item} :
    item' ∈ (s.insert g item).items ↔ item' = item ∨ item' ∈ s.items := by
  rw [h.items_insert]
  split
  · rename_i hmem
    constructor
    · exact Or.inr
    · rintro (rfl | hmem')
      · exact hmem
      · exact hmem'
  · rw [Array.mem_push, or_comm]

/-- Inserting leaves the items that are there at their places. -/
theorem Consistent.insert_grows (h : s.Consistent g) :
    s.items.toList <+: (s.insert g item).items.toList := by
  rw [h.items_insert]
  split
  · exact List.prefix_refl _
  · rw [Array.toList_push]
    exact List.prefix_append _ _

end StateSet

end Earley
