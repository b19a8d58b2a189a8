/-
  `Recognition` — what the expansion of an item adds, and that the queue of a set runs dry.

  To expand an item is to insert the items of one list, `additions`, each at its position
  (`setAt_expand`); this is the only place where the three kinds of expansion are told apart.
  Insertions only make sets longer, and never before the position that is worked on (`Extends`).

  If only items of certain shapes ever get into the sets (`Bounded`), a set has no more of them
  than it has room for, so the items of a set are all expanded when it has been worked off
  (`settled_drain`). What an expansion has brought in stays in, so in the end every item of
  every set is settled (`settled_run`): what follows from it is there.
-/
import Earley.Chart.Basic
import Earley.Proofs.Chart.StateSet
import Earley.Proofs.Grammar.WellFormed
import Mathlib.Algebra.BigOperators.Ring.List
import Mathlib.Algebra.Ring.Nat
import Mathlib.Data.List.Perm.Subperm

namespace Earley

namespace Recognition

variable {g : Grammar} {input : Array Char} {r r' r'' : Recognition} {pos k : Nat} {item : Item}

/-! ### Inserting items -/

/-- Inserts items, each at its position. -/
def insertEach (g : Grammar) (r : Recognition) (items : List (Nat × Item)) : Recognition :=
  items.foldl (fun r p => r.insert g p.1 p.2) r

/-- The tables of all sets mirror their items. -/
structure Intact (g : Grammar) (length : Nat) (r : Recognition) : Prop where
  size : r.sets.size = length + 1
  consistent : ∀ k, (r.setAt k).Consistent g

theorem Intact.getElem?_sets {length : Nat} (h : r.Intact g length) (hk : k ≤ length) :
    r.sets[k]? = some (r.setAt k) := by
  have hlt : k < r.sets.size := by
    rw [h.size]
    omega
  rw [setAt, Array.getD_eq_getD_getElem?, Array.getElem?_eq_getElem hlt, Option.getD_some]

theorem setAt_insert (g : Grammar) (r : Recognition) (pos : Nat) (item : Item) (k : Nat) :
    (r.insert g pos item).setAt k =
      if k = pos ∧ pos < r.sets.size then (r.setAt pos).insert g item else r.setAt k := by
  rw [insert, setAt, setAt, setAt, Array.getD_eq_getD_getElem?, Array.getElem?_modify]
  by_cases hk : k = pos
  · subst hk
    by_cases hlt : k < r.sets.size
    · simp [hlt, Array.getD_eq_getD_getElem?]
    · simp [hlt, Array.getD_eq_getD_getElem?]
  · simp [hk, Ne.symm hk, Array.getD_eq_getD_getElem?]

theorem Intact.insert {length : Nat} (h : r.Intact g length) (pos : Nat) (item : Item) :
    (r.insert g pos item).Intact g length where
  size := by
    rw [← h.size]
    exact Array.size_modify
  consistent k := by
    rw [setAt_insert]
    split
    · exact (h.consistent pos).insert
    · exact h.consistent k

theorem Intact.insertEach {length : Nat} (h : r.Intact g length) (items : List (Nat × Item)) :
    (r.insertEach g items).Intact g length := by
  induction items generalizing r with
  | nil => exact h
  | cons p items ih => exact ih (h.insert p.1 p.2)

/-- What is in a set after an insertion was there before, or is what was inserted. -/
theorem mem_setAt_insert_iff {length : Nat} (h : r.Intact g length) (hpos : pos ≤ length)
    {item' : Item} :
    item' ∈ ((r.insert g pos item).setAt k).items ↔
      k = pos ∧ item' = item ∨ item' ∈ (r.setAt k).items := by
  rw [setAt_insert]
  have hlt : pos < r.sets.size := by
    rw [h.size]
    omega
  by_cases hk : k = pos
  · subst hk
    rw [if_pos ⟨rfl, hlt⟩, (h.consistent k).mem_insert_iff]
    simp
  · rw [if_neg fun hcontra => hk hcontra.1]
    simp [hk]

theorem mem_setAt_insertEach_iff {length : Nat} (h : r.Intact g length)
    {items : List (Nat × Item)} (hitems : ∀ p ∈ items, p.1 ≤ length) {item' : Item} :
    item' ∈ ((r.insertEach g items).setAt k).items ↔
      (k, item') ∈ items ∨ item' ∈ (r.setAt k).items := by
  induction items generalizing r with
  | nil => simp [insertEach]
  | cons p items ih =>
    obtain ⟨hp, hitems⟩ := List.forall_mem_cons.1 hitems
    rw [insertEach, List.foldl_cons, ← insertEach, ih (h.insert p.1 p.2) hitems,
      mem_setAt_insert_iff h hp, List.mem_cons, Prod.ext_iff]
    tauto

/-! ### Sets only get longer -/

/-- Tells that the second recognition goes on from the first one: no set before `pos` is touched,
and the others have their items in front of new ones. -/
structure Extends (pos : Nat) (r r' : Recognition) : Prop where
  same : ∀ k < pos, r'.setAt k = r.setAt k
  grows : ∀ k, (r.setAt k).items.toList <+: (r'.setAt k).items.toList

theorem Extends.refl (pos : Nat) (r : Recognition) : Extends pos r r :=
  ⟨fun _ _ => rfl, fun _ => List.prefix_refl _⟩

theorem Extends.trans (h : Extends pos r r') (h' : Extends pos r' r'') : Extends pos r r'' :=
  ⟨fun k hk => (h'.same k hk).trans (h.same k hk), fun k => (h.grows k).trans (h'.grows k)⟩

theorem Extends.mono {pos' : Nat} (h : Extends pos r r') (hle : pos' ≤ pos) :
    Extends pos' r r' :=
  ⟨fun k hk => h.same k (Nat.lt_of_lt_of_le hk hle), h.grows⟩

theorem Extends.mem (h : Extends pos r r') (hmem : item ∈ (r.setAt k).items) :
    item ∈ (r'.setAt k).items :=
  Array.mem_toList_iff.1 ((h.grows k).subset (Array.mem_toList_iff.2 hmem))

/-- The items of a set keep their places. -/
theorem Extends.getElem? (h : Extends pos r r') {place : Nat}
    (hplace : (r.setAt k).items[place]? = some item) :
    (r'.setAt k).items[place]? = some item := by
  obtain ⟨rest, hrest⟩ := h.grows k
  rw [← Array.getElem?_toList] at hplace ⊢
  rw [← hrest, List.getElem?_append_left (List.getElem?_eq_some_iff.1 hplace).1]
  exact hplace

theorem extends_insert {length : Nat} (h : r.Intact g length) {pos' : Nat} (hle : pos ≤ pos')
    (item : Item) : Extends pos r (r.insert g pos' item) where
  same k hk := by
    rw [setAt_insert, if_neg]
    rintro ⟨rfl, -⟩
    omega
  grows k := by
    rw [setAt_insert]
    split
    · rename_i hk
      rw [hk.1]
      exact (h.consistent pos').insert_grows
    · exact List.prefix_refl _

theorem extends_insertEach {length : Nat} (h : r.Intact g length) {items : List (Nat × Item)}
    (hitems : ∀ p ∈ items, pos ≤ p.1) : Extends pos r (r.insertEach g items) := by
  induction items generalizing r with
  | nil => exact Extends.refl pos r
  | cons p items ih =>
    obtain ⟨hp, hitems⟩ := List.forall_mem_cons.1 hitems
    exact (extends_insert h hp p.2).trans (ih (h.insert p.1 p.2) hitems)

/-! ### Expanding an item -/

/-- The items that the expansion of `item` inserts, each with its position. -/
def additions (g : Grammar) (input : Array Char) (pos : Nat) (r : Recognition) (item : Item) :
    List (Nat × Item) :=
  match item.nextSymbol? g with
  | some (.nonterm id) =>
    (predictions g id pos).map (Prod.mk pos) ++
      if g.isNullable id then [(pos, item.advance)] else []
  | some (.terminal t) =>
    match t.matchAt input pos with
    | some length => [(pos + length, item.advance)]
    | none => []
  | none => ((r.setAt item.start).waitingOn (item.head g)).map fun w => (pos, w.advance)

theorem insertAll_eq (g : Grammar) (pos : Nat) (r : Recognition) (items : List Item) :
    r.insertAll g pos items = r.insertEach g (items.map (Prod.mk pos)) := by
  rw [insertAll, insertEach, List.foldl_map]

theorem Intact.insertAll {length : Nat} (h : r.Intact g length) (pos : Nat) (items : List Item) :
    (r.insertAll g pos items).Intact g length := by
  rw [insertAll_eq]
  exact h.insertEach _

/-- To expand an item is to insert the additions. -/
theorem sets_expand (g : Grammar) (input : Array Char) (pos : Nat) (r : Recognition)
    (item : Item) :
    (r.expand g input pos item).sets = (r.insertEach g (additions g input pos r item)).sets := by
  rw [expand, additions]
  cases item.nextSymbol? g with
  | none =>
    simp only [complete, insertAll_eq, List.map_map]
    rfl
  | some symbol =>
    cases symbol with
    | nonterm id =>
      simp only [predict, insertAll_eq]
      split
      · rw [insertEach, insertEach, List.foldl_append]
        rfl
      · rw [List.append_nil]
    | terminal t =>
      simp only [scan]
      split
      · rename_i hmatch
        rw [hmatch]
        rfl
      · rename_i length hmatch
        rw [hmatch]
        rfl

theorem setAt_expand (g : Grammar) (input : Array Char) (pos : Nat) (r : Recognition)
    (item : Item) (k : Nat) :
    (r.expand g input pos item).setAt k =
      (r.insertEach g (additions g input pos r item)).setAt k := by
  rw [setAt, setAt, sets_expand]

theorem Intact.expand {length : Nat} (h : r.Intact g length) (input : Array Char) (pos : Nat)
    (item : Item) : (r.expand g input pos item).Intact g length where
  size := by
    rw [sets_expand]
    exact (h.insertEach _).size
  consistent k := by
    rw [setAt_expand]
    exact (h.insertEach _).consistent k

/-- Additions stand at the position of the item or at a later one in the input. -/
theorem le_of_mem_additions {p : Nat × Item} (hpos : pos ≤ input.size)
    (hp : p ∈ additions g input pos r item) : pos ≤ p.1 ∧ p.1 ≤ input.size := by
  unfold additions at hp
  split at hp
  · rcases List.mem_append.1 hp with hp | hp
    · obtain ⟨_, -, rfl⟩ := List.mem_map.1 hp
      exact ⟨Nat.le_refl _, hpos⟩
    · split at hp
      · rw [List.mem_singleton] at hp
        subst hp
        exact ⟨Nat.le_refl _, hpos⟩
      · cases hp
  · split at hp
    · rename_i hmatch
      rw [List.mem_singleton] at hp
      subst hp
      exact ⟨Nat.le_add_right _ _, ((Terminal.matchAt_eq_some_iff hpos).1 hmatch).1⟩
    · cases hp
  · obtain ⟨_, -, rfl⟩ := List.mem_map.1 hp
    exact ⟨Nat.le_refl _, hpos⟩

theorem extends_expand (h : r.Intact g input.size) (hpos : pos ≤ input.size) (item : Item) :
    Extends pos r (r.expand g input pos item) := by
  have hextends : Extends pos r (r.insertEach g (additions g input pos r item)) :=
    extends_insertEach h fun p hp => (le_of_mem_additions hpos hp).1
  exact ⟨fun k hk => by rw [setAt_expand]; exact hextends.same k hk,
    fun k => by rw [setAt_expand]; exact hextends.grows k⟩

theorem mem_setAt_expand_iff (h : r.Intact g input.size) (hpos : pos ≤ input.size)
    {item' : Item} :
    item' ∈ ((r.expand g input pos item).setAt k).items ↔
      (k, item') ∈ additions g input pos r item ∨ item' ∈ (r.setAt k).items := by
  rw [setAt_expand, mem_setAt_insertEach_iff h fun p hp => (le_of_mem_additions hpos hp).2]

/-! ### Runs -/

/-- Whatever expansions keep, working off a set keeps. -/
theorem drain_induction {P : Recognition → Prop}
    (hexpand : ∀ r item, P r → item ∈ (r.setAt pos).items → P (r.expand g input pos item))
    (fuel cursor : Nat) (h : P r) : P (r.drain g input pos fuel cursor) := by
  induction fuel generalizing cursor r with
  | zero => exact h
  | succ fuel ih =>
    rw [drain]
    split
    · exact h
    · rename_i item hitem
      exact ih (cursor + 1) (hexpand r item h (Array.mem_of_getElem? hitem))

/-- What holds of the start and is kept by expansions holds of the whole run. -/
theorem run_induction {P : Recognition → Prop} (hstart : P (start g input.size))
    (hexpand : ∀ r pos item, pos ≤ input.size → P r → item ∈ (r.setAt pos).items →
      P (r.expand g input pos item)) : P (run g input) := by
  -- For any positions, since the induction is on the list of those that are left.
  have hfold : ∀ positions : List Nat, (∀ pos ∈ positions, pos ≤ input.size) →
      ∀ r, P r → P (positions.foldl (drainAt g input g.slots) r) := by
    intro positions
    induction positions with
    | nil => exact fun _ r h => h
    | cons pos positions ih =>
      intro hpositions r h
      obtain ⟨hpos, hpositions⟩ := List.forall_mem_cons.1 hpositions
      exact ih hpositions _ (drain_induction (fun r item => hexpand r pos item hpos) _ _ h)
  refine hfold _ (fun pos hpos => ?_) _ hstart
  rw [List.mem_range] at hpos
  omega

theorem intact_empty (g : Grammar) (length : Nat) :
    Intact g length ⟨Array.replicate (length + 1) .empty, 0⟩ where
  size := Array.size_replicate
  consistent k := by
    rw [setAt, Array.getD_eq_getD_getElem?, Array.getElem?_replicate]
    split <;> exact StateSet.consistent_empty

theorem intact_start (g : Grammar) (length : Nat) : (start g length).Intact g length :=
  (intact_empty g length).insertAll 0 _

theorem mem_setAt_start_iff {length : Nat} :
    item ∈ ((start g length).setAt k).items ↔ k = 0 ∧ item ∈ predictions g g.start 0 := by
  have hzero : ∀ p ∈ (predictions g g.start 0).map (Prod.mk 0), p.1 ≤ length := by
    intro p hp
    obtain ⟨_, -, rfl⟩ := List.mem_map.1 hp
    exact Nat.zero_le _
  have hnone : item ∉ (setAt ⟨Array.replicate (length + 1) .empty, 0⟩ k).items := by
    rw [setAt, Array.getD_eq_getD_getElem?, Array.getElem?_replicate]
    split <;> simp [StateSet.empty]
  rw [start, insertAll_eq, mem_setAt_insertEach_iff (intact_empty g length) hzero]
  simp [hnone, eq_comm, and_comm]

theorem intact_run (g : Grammar) (input : Array Char) : (run g input).Intact g input.size :=
  run_induction (intact_start g input.size) fun _ _ _ _ h _ => h.expand input _ _

/-! ### The shapes of items -/

/-- The shape of an item at a position: a dot in a rule of the grammar, and a start up to the
position. -/
structure Fits (g : Grammar) (pos : Nat) (item : Item) : Prop where
  rule_lt : item.rule < g.rules.size
  dot_le : item.dot ≤ (g.rule item.rule).body.size
  start_le : item.start ≤ pos

/-- All items have shapes that fit. -/
def Bounded (g : Grammar) (r : Recognition) : Prop :=
  ∀ k, ∀ item ∈ (r.setAt k).items, Fits g k item

theorem fits_predict (hg : g.WellFormed) {id rule : Nat} (h : rule ∈ g.alternativesOf id)
    (pos : Nat) : Fits g pos (.predict rule pos) :=
  ⟨(hg.mem_alternativesOf_iff.1 h).1, Nat.zero_le _, Nat.le_refl _⟩

theorem Fits.advance (h : Fits g k item) {symbol : Symbol}
    (hnext : item.nextSymbol? g = some symbol) (hle : k ≤ pos) : Fits g pos item.advance :=
  ⟨h.rule_lt, (Array.getElem?_eq_some_iff.1 hnext).1, Nat.le_trans h.start_le hle⟩

theorem fits_of_mem_additions (hg : g.WellFormed) (h : r.Intact g input.size)
    (hr : r.Bounded g) (hitem : item ∈ (r.setAt pos).items) {p : Nat × Item}
    (hp : p ∈ additions g input pos r item) : Fits g p.1 p.2 := by
  have hfits := hr pos item hitem
  unfold additions at hp
  split at hp
  · rename_i id hnext
    rcases List.mem_append.1 hp with hp | hp
    · obtain ⟨_, hpredict, rfl⟩ := List.mem_map.1 hp
      obtain ⟨rule, hrule, rfl⟩ := List.mem_map.1 hpredict
      exact fits_predict hg hrule pos
    · split at hp
      · rw [List.mem_singleton] at hp
        subst hp
        exact hfits.advance hnext (Nat.le_refl _)
      · cases hp
  · rename_i t hnext
    split at hp
    · rw [List.mem_singleton] at hp
      subst hp
      exact hfits.advance hnext (Nat.le_add_right _ _)
    · cases hp
  · obtain ⟨w, hw, rfl⟩ := List.mem_map.1 hp
    obtain ⟨hmem, hnext⟩ := (h.consistent item.start).mem_waitingOn_iff.1 hw
    exact (hr item.start w hmem).advance hnext hfits.start_le

theorem Bounded.expand (hg : g.WellFormed) (h : r.Intact g input.size) (hr : r.Bounded g)
    (hpos : pos ≤ input.size) (hitem : item ∈ (r.setAt pos).items) :
    (r.expand g input pos item).Bounded g := by
  intro k item' hitem'
  rcases (mem_setAt_expand_iff h hpos).1 hitem' with hadd | hold
  · exact fits_of_mem_additions hg h hr hitem hadd
  · exact hr k item' hold

theorem bounded_start (hg : g.WellFormed) (length : Nat) : (start g length).Bounded g := by
  intro k item hitem
  obtain ⟨rfl, hpredict⟩ := mem_setAt_start_iff.1 hitem
  obtain ⟨rule, hrule, rfl⟩ := List.mem_map.1 hpredict
  exact fits_predict hg hrule 0

/-! ### Room for the items -/

/-- All items whose shapes fit at a position. -/
def fitting (g : Grammar) (pos : Nat) : List Item :=
  (List.range g.rules.size).flatMap fun rule =>
    (List.range ((g.rule rule).body.size + 1)).flatMap fun dot =>
      (List.range (pos + 1)).map fun start => ⟨rule, dot, start⟩

theorem Fits.mem_fitting (h : Fits g pos item) : item ∈ fitting g pos := by
  rw [fitting, List.mem_flatMap]
  refine ⟨item.rule, List.mem_range.2 h.rule_lt, List.mem_flatMap.2 ⟨item.dot, ?_, ?_⟩⟩
  · exact List.mem_range.2 (Nat.lt_succ_of_le h.dot_le)
  · exact List.mem_map.2 ⟨item.start, List.mem_range.2 (Nat.lt_succ_of_le h.start_le), rfl⟩

theorem foldl_add_eq_sum {α : Type} (f : α → Nat) (l : List α) (n : Nat) :
    l.foldl (fun n a => n + f a) n = n + (l.map f).sum := by
  induction l generalizing n with
  | nil => rfl
  | cons a l ih => rw [List.foldl_cons, ih, List.map_cons, List.sum_cons, Nat.add_assoc]

theorem length_fitting (g : Grammar) (pos : Nat) :
    (fitting g pos).length = (pos + 1) * g.slots := by
  rw [Grammar.slots, ← Array.foldl_toList, foldl_add_eq_sum, Nat.zero_add, ← Grammar.map_rule_range,
    List.map_map, fitting, List.length_flatMap, ← List.sum_map_mul_left]
  congr 2
  funext rule
  rw [List.length_flatMap]
  simp only [List.length_map, List.length_range, List.map_const', List.sum_replicate_nat,
    Function.comp_apply, Nat.mul_comm]

/-- A set has no more items than it has room for. -/
theorem size_items_le (h : r.Intact g input.size) (hr : r.Bounded g) (pos : Nat) :
    (r.setAt pos).items.size ≤ (pos + 1) * g.slots := by
  rw [← length_fitting, ← Array.length_toList]
  refine ((h.consistent pos).nodup.subperm fun item hitem => ?_).length_le
  exact (hr pos item (Array.mem_toList_iff.1 hitem)).mem_fitting

/-! ### Settled items -/

/-- Tells that what follows from an item of the set at `pos` is there. A complete item that began
at `pos` itself is left out, since items that wait for its head may still be added behind it. -/
def Settled (g : Grammar) (input : Array Char) (pos : Nat) (r : Recognition) (item : Item) :
    Prop :=
  (item.nextSymbol? g = none → item.start < pos) →
    ∀ p ∈ additions g input pos r item, p.2 ∈ (r.setAt p.1).items

theorem additions_eq_of_extends (h : Extends pos r r')
    (hstart : item.nextSymbol? g = none → item.start < pos) :
    additions g input pos r' item = additions g input pos r item := by
  unfold additions
  split
  · rfl
  · rfl
  · rename_i hnext
    rw [h.same item.start (hstart hnext)]

theorem Settled.mono (hsettled : Settled g input pos r item) (h : Extends pos r r') :
    Settled g input pos r' item := by
  intro hstart p hp
  rw [additions_eq_of_extends h hstart] at hp
  exact h.mem (hsettled hstart p hp)

theorem settled_expand (h : r.Intact g input.size) (hpos : pos ≤ input.size) (item : Item) :
    Settled g input pos (r.expand g input pos item) item := by
  intro hstart p hp
  rw [additions_eq_of_extends (extends_expand h hpos item) hstart] at hp
  exact (mem_setAt_expand_iff h hpos).2 (Or.inl hp)

/-- Working off a set leaves the earlier ones alone, and everything in shape. -/
theorem drain_spec (hg : g.WellFormed) (h : r.Intact g input.size) (hr : r.Bounded g)
    (hpos : pos ≤ input.size) (fuel cursor : Nat) :
    (r.drain g input pos fuel cursor).Intact g input.size ∧
      (r.drain g input pos fuel cursor).Bounded g ∧
      Extends pos r (r.drain g input pos fuel cursor) := by
  refine drain_induction (P := fun r' => r'.Intact g input.size ∧ r'.Bounded g ∧ Extends pos r r')
    ?_ fuel cursor ⟨h, hr, Extends.refl pos r⟩
  rintro r' item ⟨h', hr', hextends⟩ hitem
  exact ⟨h'.expand input pos item, hr'.expand hg h' hpos hitem,
    hextends.trans (extends_expand h' hpos item)⟩

/-- When a set is worked off, all its items are settled: the fuel is enough for the items that
there can be. -/
theorem settled_drain (hg : g.WellFormed) (hpos : pos ≤ input.size) {fuel cursor : Nat}
    (h : r.Intact g input.size) (hr : r.Bounded g)
    (hcursor : ∀ place < cursor, ∀ item, (r.setAt pos).items[place]? = some item →
      Settled g input pos r item)
    (hfuel : (pos + 1) * g.slots ≤ cursor + fuel) :
    ∀ item ∈ ((r.drain g input pos fuel cursor).setAt pos).items,
      Settled g input pos (r.drain g input pos fuel cursor) item := by
  induction fuel generalizing r cursor with
  | zero =>
    -- The fuel is used up, so the cursor has passed all the items that the set has room for.
    intro item hitem
    obtain ⟨place, hplace⟩ := Array.getElem?_of_mem hitem
    have hlt : place < (r.setAt pos).items.size := (Array.getElem?_eq_some_iff.1 hplace).1
    have hsize := size_items_le h hr pos
    exact hcursor place (by omega) item hplace
  | succ fuel ih =>
    rw [drain]
    split
    · rename_i hnone
      intro item hitem
      obtain ⟨place, hplace⟩ := Array.getElem?_of_mem hitem
      have hlt : place < (r.setAt pos).items.size := (Array.getElem?_eq_some_iff.1 hplace).1
      rw [Array.getElem?_eq_none_iff] at hnone
      exact hcursor place (by omega) item hplace
    · rename_i item hitem
      have hextends := extends_expand h hpos item
      refine ih (h.expand input pos item)
        (hr.expand hg h hpos (Array.mem_of_getElem? hitem)) ?_ (by omega)
      intro place hplace item' hitem'
      rcases Nat.lt_succ_iff_lt_or_eq.1 hplace with hlt | rfl
      · -- An item before the cursor has kept its place, and what it brought in.
        have hsize : cursor < (r.setAt pos).items.size := (Array.getElem?_eq_some_iff.1 hitem).1
        have hold : (r.setAt pos).items[place]? = some (r.setAt pos).items[place] :=
          Array.getElem?_eq_getElem (by omega)
        have heq := (hextends.getElem? hold).symm.trans hitem'
        rw [heq] at hold
        exact (hcursor place hlt item' hold).mono hextends
      · have heq := (hextends.getElem? hitem).symm.trans hitem'
        obtain rfl := Option.some.inj heq
        exact settled_expand h hpos item

/-- In the end, all items of all sets are settled. -/
theorem settled_run (hg : g.WellFormed) (input : Array Char) {k : Nat} (hk : k ≤ input.size)
    {item : Item} (hitem : item ∈ ((run g input).setAt k).items) :
    Settled g input k (run g input) item := by
  have hprefix : ∀ count ≤ input.size + 1,
      ∃ r, r = (List.range count).foldl (drainAt g input g.slots) (start g input.size) ∧
        r.Intact g input.size ∧ r.Bounded g ∧
        ∀ k < count, ∀ item ∈ (r.setAt k).items, Settled g input k r item := by
    intro count
    induction count with
    | zero =>
      exact fun _ => ⟨_, rfl, intact_start g input.size, bounded_start hg input.size,
        fun k hk => absurd hk (Nat.not_lt_zero k)⟩
    | succ pos ih =>
      intro hcount
      obtain ⟨r, hr, hintact, hbounded, hsettled⟩ := ih (by omega)
      have hpos : pos ≤ input.size := by omega
      obtain ⟨hintact', hbounded', hextends⟩ :=
        drain_spec hg hintact hbounded hpos ((pos + 1) * g.slots) 0
      refine ⟨r.drainAt g input g.slots pos, ?_, hintact', hbounded', ?_⟩
      · rw [List.range_succ, List.foldl_append, ← hr]
        rfl
      · intro k hk item hitem
        rcases Nat.lt_succ_iff_lt_or_eq.1 hk with hlt | rfl
        · -- Earlier sets keep their items, and what these have brought in.
          have hold := hitem
          rw [drainAt, hextends.same k hlt] at hold
          exact (hsettled k hlt item hold).mono (hextends.mono (Nat.le_of_lt hlt))
        · exact settled_drain hg hpos hintact hbounded
            (fun place hplace => absurd hplace (Nat.not_lt_zero place))
            (Nat.le_add_left _ _) item hitem
  obtain ⟨r, hr, -, -, hsettled⟩ := hprefix (input.size + 1) (Nat.le_refl _)
  rw [run, ← hr] at hitem ⊢
  exact hsettled k (Nat.lt_succ_of_le hk) item hitem

end Recognition

end Earley
