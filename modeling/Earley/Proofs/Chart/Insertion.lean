/-
  `Insertion` — after any insertions the tables of a state set mirror its items.

  An item may be inserted again and again. What a state set has to answer for is the list of all
  insertions so far, repeats included (`StateSet.Mirrors`): its items are the insertions without
  the repeats, in the order of the first ones, and every table answers as a search would. Nothing
  is assumed of the items; in particular a dot may be past the end of its rule.

  The tables agree with the items all along (`consistent_insertions`), so what is left is that the
  items are those that were inserted (`toList_items_insertions`).
-/
import Earley.Proofs.Chart.Exact
import Earley.Proofs.Chart.InRange
import Earley.Proofs.Grammar.Order

namespace Earley

namespace StateSet

variable {g : Grammar}

/-- What is told of each of some items when they are inserted one after another, and the set that
this gives. -/
def insertions (g : Grammar) (inserted : List Item) : List Bool × StateSet :=
  inserted.foldl (fun (told, s) item =>
    let (added, s) := s.tryInsert g item
    (told ++ [added], s)) ([], empty)

/-- Tells that a state set is right after some insertions, and so is what was told of them. -/
structure Mirrors (g : Grammar) (inserted : List Item) (told : List Bool) (s : StateSet) :
    Prop where
  /-- An item was added if it had not been inserted before. -/
  told_eq : told = inserted.mapIdx fun place item => decide (item ∉ inserted.take place)
  /-- Every item stands once, in the order of the first insertions. -/
  items_eq : s.items.toList = inserted.eraseDups
  contains_iff : ∀ item, s.contains item = true ↔ item ∈ inserted
  /-- Every place that is kept for a non-terminal is that of an item, and all those and no others
  wait for it, in the order of the items. -/
  waitingOn?_eq : ∀ id, s.waitingOn? id =
    some (s.items.toList.filter fun item => item.nextSymbol? g == some (.nonterm id))
  hasCompleted_iff : ∀ head start, s.hasCompleted head start = true ↔
    ∃ item ∈ inserted, item.isComplete g = true ∧ item.head g = head ∧ item.start = start
  mem_completions_iff : ∀ head start,
    (head, start) ∈ s.completions ↔ s.hasCompleted head start = true
  nodup_completions : s.completions.Nodup

/-! ### One more insertion -/

theorem fst_tryInsert (g : Grammar) (s : StateSet) (item : Item) :
    (s.tryInsert g item).1 = !s.contains item := by
  rw [tryInsert]
  cases s.contains item <;> rfl

theorem insertions_concat (g : Grammar) (inserted : List Item) (item : Item) :
    insertions g (inserted ++ [item]) =
      ((insertions g inserted).1 ++ [((insertions g inserted).2.tryInsert g item).1],
        (insertions g inserted).2.insert g item) := by
  rw [insertions, List.foldl_concat]
  rfl

theorem consistent_insertions (g : Grammar) (inserted : List Item) :
    (insertions g inserted).2.Consistent g := by
  induction inserted using List.reverseRecOn with
  | nil => exact consistent_empty
  | append_singleton inserted item ih =>
    rw [insertions_concat]
    exact ih.insert

/-! ### The items after all insertions -/

/-- An item that is there already is not added again, so only first insertions count. -/
theorem toList_items_insertions (g : Grammar) (inserted : List Item) :
    (insertions g inserted).2.items.toList = inserted.eraseDups := by
  induction inserted using List.reverseRecOn with
  | nil => rfl
  | append_singleton inserted item ih =>
    have hmem : item ∈ (insertions g inserted).2.items ↔ item ∈ inserted := by
      rw [← Array.mem_toList_iff, ih, List.mem_eraseDups]
    rw [insertions_concat, (consistent_insertions g inserted).items_insert, eraseDups_concat, ← ih]
    simp only [hmem]
    split
    · rw [List.append_nil]
    · exact Array.toList_push

theorem mem_insertions_iff {inserted : List Item} {item : Item} :
    item ∈ (insertions g inserted).2.items ↔ item ∈ inserted := by
  rw [← Array.mem_toList_iff, toList_items_insertions, List.mem_eraseDups]

theorem contains_insertions_iff {inserted : List Item} {item : Item} :
    (insertions g inserted).2.contains item = true ↔ item ∈ inserted := by
  rw [(consistent_insertions g inserted).contains_iff, mem_insertions_iff]

/-- What is told of an item is whether its insertion is the first one. -/
theorem told_insertions (g : Grammar) (inserted : List Item) :
    (insertions g inserted).1 =
      inserted.mapIdx fun place item => decide (item ∉ inserted.take place) := by
  induction inserted using List.reverseRecOn with
  | nil => rfl
  | append_singleton inserted item ih =>
    have hlast : (!(insertions g inserted).2.contains item) = decide (item ∉ inserted) := by
      rw [Bool.eq_iff_iff, Bool.not_eq_true', decide_eq_true_iff, ← Bool.not_eq_true,
        contains_insertions_iff]
    -- The insertions before the last one have the same ones before them.
    have hfront : (inserted.mapIdx fun place item' =>
          decide (item' ∉ (inserted ++ [item]).take place)) =
        inserted.mapIdx fun place item' => decide (item' ∉ inserted.take place) :=
      List.mapIdx_eq_mapIdx_iff.2 fun place hplace => by
        rw [List.take_append_of_le_length (Nat.le_of_lt hplace)]
    rw [insertions_concat, fst_tryInsert, ih, hlast, List.mapIdx_concat, hfront, List.take_left]

end StateSet

/-- **The tables of a state set mirror its items.** Whatever items are inserted, in whatever order
and however often, each of them stands once in the list, in the order of the first insertions, and
an insertion tells whether it is the first one of its item. The set contains what was inserted,
the items that wait for a non-terminal are those with it behind the dot, in their order, and the
completions are the heads and starts of the items whose dot is at or past the end of the rule, each
pair once. -/
theorem stateSet_mirrors (g : Grammar) (inserted : List Item) :
    StateSet.Mirrors g inserted (StateSet.insertions g inserted).1
      (StateSet.insertions g inserted).2 := by
  have hconsistent := StateSet.consistent_insertions g inserted
  exact {
    told_eq := StateSet.told_insertions g inserted
    items_eq := StateSet.toList_items_insertions g inserted
    contains_iff := fun _ => StateSet.contains_insertions_iff
    waitingOn?_eq := fun id => by
      rw [hconsistent.waitingOn?_eq, hconsistent.waitingOn_eq]
    hasCompleted_iff := fun head start => by
      simp only [hconsistent.hasCompleted_iff, StateSet.mem_insertions_iff, Item.isComplete,
        Item.nextSymbol?_eq_none_iff, decide_eq_true_iff]
    mem_completions_iff := fun _ _ => StateSet.mem_completions_iff
    nodup_completions := StateSet.nodup_completions _ }

end Earley
