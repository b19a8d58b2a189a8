/-
  `Queue` — the queue of every set drains, and each item has its turn once.

  A set grows while it is worked off, but only by items whose shapes fit, and by each of them once.
  So there is a bound on its items, and the cursor catches up with them (`exists_turns?_drain`).
  Whatever has been expanded up to some turn are the items of the sets before the one that is
  worked on, and those of this one before the cursor (`Queue.Sound`). Hence in the end every item
  of every set has had its turn, in the order of insertion and no item twice (`queue_drains`).

  No bound on the number of turns is given in advance, and no number is used unchecked.
-/
import Earley.Proofs.Chart.InRange
import Earley.Proofs.Chart.Rejection

namespace Earley

/-! ### The items of a set, with their position -/

namespace Recognition

variable {g : Grammar} {r r' : Recognition} {pos : Nat} {item : Item}

/-- The items of the set at `pos`, in the order of their insertion, each with its position. -/
def entries (r : Recognition) (pos : Nat) : List (Nat × Item) :=
  (r.setAt pos).items.toList.map (Prod.mk pos)

theorem Extends.entries_eq (h : Extends pos r r') {k : Nat} (hk : k < pos) :
    r'.entries k = r.entries k := by
  rw [entries, entries, h.same k hk]

/-- The next item of a set comes behind those before the cursor, and stays there. -/
theorem Extends.take_entries_succ (h : Extends pos r r') {cursor : Nat}
    (hitem : (r.setAt pos).items[cursor]? = some item) :
    (r'.entries pos).take (cursor + 1) = (r.entries pos).take cursor ++ [(pos, item)] := by
  obtain ⟨rest, hrest⟩ := h.grows pos
  have hlt : cursor < (r.setAt pos).items.toList.length :=
    (Array.getElem?_eq_some_iff.1 hitem).1
  rw [entries, entries, ← List.map_take, ← List.map_take, ← hrest,
    List.take_append_of_le_length hlt, List.take_add_one, Array.getElem?_toList, hitem,
    Option.toList_some, List.map_append]
  rfl

theorem nodup_flatMap_entries {length : Nat} (h : r.Intact g length) (count : Nat) :
    ((List.range count).flatMap r.entries).Nodup := by
  rw [List.nodup_flatMap]
  constructor
  · exact fun k _ => (h.consistent k).nodup.map (Prod.mk_right_injective k)
  · -- Items of different sets differ in their positions.
    refine List.pairwise_lt_range.imp fun {k k'} hlt p hp hp' => ?_
    obtain ⟨item, -, rfl⟩ := List.mem_map.1 hp
    obtain ⟨item', -, heq⟩ := List.mem_map.1 hp'
    have hk : k' = k := congrArg Prod.fst heq
    omega

end Recognition

namespace Queue

variable {g : Grammar} {input : Array Char} {q q' : Queue} {item : Item}

/-! ### What is known of a queue -/

/-- What is known of a queue: items have their turns in order, set by set. -/
structure Sound (g : Grammar) (input : Array Char) (q : Queue) : Prop where
  intact : q.recognition.Intact g input.size
  bounded : q.recognition.Bounded g
  reaches : q.recognition.Reaches
  pos_le : q.pos ≤ input.size + 1
  expanded_eq : q.expanded = (List.range q.pos).flatMap q.recognition.entries ++
    (q.recognition.entries q.pos).take q.cursor

/-- Behind the last set there are no items. -/
theorem Sound.pos_le_of_mem (hq : q.Sound g input) {k : Nat}
    (hitem : item ∈ (q.recognition.setAt k).items) : k ≤ input.size := by
  by_contra hgt
  have hnone : q.recognition.sets[k]? = none := by
    rw [Array.getElem?_eq_none_iff, hq.intact.size]
    omega
  rw [Recognition.setAt, Array.getD_eq_getD_getElem?, hnone] at hitem
  exact Array.not_mem_empty item hitem

/-- The turn of an item. -/
theorem Sound.turn?_of_some (hg : g.WellFormed) (hq : q.Sound g input)
    (hpos : q.pos ≤ input.size) (hitem : q.item? = some item) :
    q.turn? g input = some ⟨q.recognition.expand g input q.pos item, q.pos, q.cursor + 1,
      q.expanded ++ [(q.pos, item)]⟩ := by
  rw [item?] at hitem
  have hset := hq.intact.getElem?_sets hpos
  have hexpand := Recognition.expand?_eq hg hq.intact hq.bounded hpos
    (Array.mem_of_getElem? hitem)
  simp only [turn?, hset, hitem, hexpand, Option.bind_eq_bind, Option.bind_some]

/-- The step to the next set. -/
theorem Sound.turn?_of_none (hq : q.Sound g input) (hpos : q.pos ≤ input.size)
    (hitem : q.item? = none) :
    q.turn? g input = some ⟨q.recognition, q.pos + 1, 0, q.expanded⟩ := by
  rw [item?] at hitem
  have hset := hq.intact.getElem?_sets hpos
  simp only [turn?, hset, hitem, Option.bind_eq_bind, Option.bind_some]

theorem Sound.exists_turn? (hg : g.WellFormed) (hq : q.Sound g input)
    (hpos : q.pos ≤ input.size) : ∃ next, q.turn? g input = some next := by
  cases hitem : q.item? with
  | none => exact ⟨_, hq.turn?_of_none hpos hitem⟩
  | some item => exact ⟨_, hq.turn?_of_some hg hpos hitem⟩

/-- Behind the last set there are no turns. -/
theorem Sound.pos_le_of_turn? (hq : q.Sound g input) (h : q.turn? g input = some q') :
    q.pos ≤ input.size := by
  obtain ⟨set, hset, -⟩ := Option.bind_eq_some_iff.1 h
  have hlt := (Array.getElem?_eq_some_iff.1 hset).1
  rw [hq.intact.size] at hlt
  omega

/-- Every turn keeps what is known. -/
theorem Sound.turn (hg : g.WellFormed) (hq : q.Sound g input) (h : q.turn? g input = some q') :
    q'.Sound g input := by
  have hpos := hq.pos_le_of_turn? h
  have hexpanded := hq.expanded_eq
  cases hitem : q.item? with
  | none =>
    rw [hq.turn?_of_none hpos hitem] at h
    obtain rfl := Option.some.inj h
    refine ⟨hq.intact, hq.bounded, hq.reaches, Nat.succ_le_succ hpos, ?_⟩
    -- The cursor is at the end, so all items of the set have had their turn.
    have hend : (q.recognition.entries q.pos).length ≤ q.cursor := by
      rw [Recognition.entries, List.length_map]
      exact Array.getElem?_eq_none_iff.1 hitem
    rw [List.take_of_length_le hend] at hexpanded
    rw [List.range_succ, List.flatMap_append, List.flatMap_singleton, List.take_zero,
      List.append_nil]
    exact hexpanded
  | some item =>
    rw [hq.turn?_of_some hg hpos hitem] at h
    obtain rfl := Option.some.inj h
    have hmem := Array.mem_of_getElem? hitem
    have hextends := Recognition.extends_expand hq.intact hpos item
    refine ⟨hq.intact.expand input q.pos item, hq.bounded.expand hg hq.intact hpos hmem,
      hq.reaches.expand hq.intact hpos hmem, hq.pos_le, ?_⟩
    have hearlier : (List.range q.pos).flatMap
        (q.recognition.expand g input q.pos item).entries =
          (List.range q.pos).flatMap q.recognition.entries :=
      List.flatMap_congr fun k hk => hextends.entries_eq (List.mem_range.1 hk)
    simp only [hearlier, hextends.take_entries_succ hitem, hexpanded, List.append_assoc]

theorem Sound.turns (hg : g.WellFormed) (hq : q.Sound g input) {count : Nat}
    (h : q.turns? g input count = some q') : q'.Sound g input := by
  induction count generalizing q with
  | zero =>
    obtain rfl := Option.some.inj h
    exact hq
  | succ count ih =>
    obtain ⟨next, hnext, hmore⟩ := Option.bind_eq_some_iff.1 h
    exact ih (hq.turn hg hnext) hmore

theorem exists_start? (hg : g.WellFormed) (input : Array Char) :
    start? g input.size = some ⟨Recognition.start g input.size, 0, 0, []⟩ ∧
      Sound g input ⟨Recognition.start g input.size, 0, 0, []⟩ := by
  constructor
  · simp only [start?, Recognition.start?_eq hg, Option.bind_eq_bind, Option.bind_some]
  · exact ⟨Recognition.intact_start g input.size, Recognition.bounded_start hg input.size,
      Recognition.reaches_start hg input.size, Nat.zero_le _, rfl⟩

/-! ### The end -/

theorem turns?_add (q : Queue) (count more : Nat) :
    q.turns? g input (count + more) =
      (q.turns? g input count).bind fun q => q.turns? g input more := by
  induction count generalizing q with
  | zero => rw [Nat.zero_add, turns?, Option.bind_some]
  | succ count ih =>
    rw [Nat.succ_add, turns?, turns?]
    cases q.turn? g input with
    | none => rfl
    | some next => exact ih next

/-- The set that is worked on is left after some number of turns: there is room for so many items
only, and the fuel that is left for the set is enough for them. -/
theorem Sound.exists_turns?_drain (hg : g.WellFormed) (hq : q.Sound g input)
    (hpos : q.pos ≤ input.size) (fuel : Nat) (hfuel : (q.pos + 1) * g.slots ≤ q.cursor + fuel) :
    ∃ count expanded, q.turns? g input count =
      some ⟨q.recognition.drain g input q.pos fuel q.cursor, q.pos + 1, 0, expanded⟩ := by
  induction fuel generalizing q with
  | zero =>
    have hsize := Recognition.size_items_le hq.intact hq.bounded q.pos
    have hitem : q.item? = none := Array.getElem?_eq_none_iff.2 (by omega)
    refine ⟨1, q.expanded, ?_⟩
    rw [turns?, hq.turn?_of_none hpos hitem]
    rfl
  | succ fuel ih =>
    rw [Recognition.drain]
    cases hitem : q.item? with
    | none =>
      refine ⟨1, q.expanded, ?_⟩
      rw [turns?, hq.turn?_of_none hpos hitem]
      rw [item?] at hitem
      rw [hitem]
      rfl
    | some item =>
      have hturn := hq.turn?_of_some hg hpos hitem
      obtain ⟨count, expanded, hcount⟩ :=
        ih (hq.turn hg hturn) hpos (by simp only; omega)
      refine ⟨count + 1, expanded, ?_⟩
      rw [turns?, hturn]
      rw [item?] at hitem
      rw [hitem]
      exact hcount

/-- The first sets are left one after another, as they are worked off with fuel. -/
theorem exists_turns?_run (hg : g.WellFormed) (input : Array Char) {sets : Nat}
    (hsets : sets ≤ input.size + 1) :
    ∃ count expanded, turns? g input count ⟨Recognition.start g input.size, 0, 0, []⟩ =
      some ⟨(List.range sets).foldl (Recognition.drainAt g input g.slots)
        (Recognition.start g input.size), sets, 0, expanded⟩ := by
  induction sets with
  | zero => exact ⟨0, [], rfl⟩
  | succ pos ih =>
    obtain ⟨count, expanded, hcount⟩ := ih (by omega)
    have hsound := (exists_start? hg input).2.turns hg hcount
    obtain ⟨more, expanded', hmore⟩ := hsound.exists_turns?_drain hg (by simp only; omega)
      ((pos + 1) * g.slots) (by simp only; omega)
    refine ⟨count + more, expanded', ?_⟩
    rw [turns?_add, hcount, Option.bind_some, hmore, List.range_succ, List.foldl_append]
    rfl

/-! ### Bounds -/

/-- Tells that a queue is within its bounds. -/
structure InBounds (g : Grammar) (input : Array Char) (q : Queue) : Prop where
  size_sets : q.recognition.sets.size = input.size + 1
  furthest_le : q.recognition.furthest ≤ input.size
  /-- All items have shapes that fit. -/
  fits : ∀ k, ∀ item ∈ (q.recognition.setAt k).items,
    item.rule < g.rules.size ∧ item.dot ≤ (g.rule item.rule).body.size ∧ item.start ≤ k
  /-- No set has an item twice, nor more items than there can be. -/
  nodup : ∀ k, (q.recognition.setAt k).items.toList.Nodup
  size_le : ∀ k, (q.recognition.setAt k).size ≤
    (k + 1) * (g.rules.toList.map fun rule => rule.body.size + 1).sum
  /-- What is scanned next lands in a later set. -/
  scan : ∀ item t length, q.item? = some item → item.nextSymbol? g = some (.terminal t) →
    t.matchAt input q.pos = some length →
      q.pos < q.pos + length ∧ q.pos + length ≤ input.size ∧
        ∀ next, q.turn? g input = some next →
          item.advance ∈ (next.recognition.setAt (q.pos + length)).items
  /-- There is a next turn, up to the last set. -/
  turn : q.pos ≤ input.size → ∃ next, q.turn? g input = some next
  /-- No item has had its turn twice. -/
  once : q.expanded.Nodup

/-- A terminal in a rule matches at least one character, and none behind the end of the input. -/
theorem lt_of_matchAt (hg : g.WellFormed) (hrule : item.rule < g.rules.size) {t : Terminal}
    (hnext : item.nextSymbol? g = some (.terminal t)) {pos length : Nat} (hpos : pos ≤ input.size)
    (hmatch : t.matchAt input pos = some length) :
    pos < pos + length ∧ pos + length ≤ input.size := by
  obtain ⟨hle, hmatches⟩ := (Terminal.matchAt_eq_some_iff hpos).1 hmatch
  refine ⟨?_, hle⟩
  rcases Nat.eq_zero_or_pos length with rfl | hlt
  · rw [Nat.add_zero, slice_self] at hmatches
    have hvacuous := hg.not_vacuous _ (Grammar.rule_mem hrule) t (Array.mem_of_getElem? hnext)
    rw [Terminal.isVacuous_of_matches_nil hmatches] at hvacuous
    cases hvacuous
  · omega

theorem Sound.scan (hg : g.WellFormed) (hq : q.Sound g input) {t : Terminal} {length : Nat}
    (hitem : q.item? = some item) (hnext : item.nextSymbol? g = some (.terminal t))
    (hmatch : t.matchAt input q.pos = some length) :
    q.pos < q.pos + length ∧ q.pos + length ≤ input.size ∧
      ∀ next, q.turn? g input = some next →
        item.advance ∈ (next.recognition.setAt (q.pos + length)).items := by
  have hmem := Array.mem_of_getElem? hitem
  have hpos := hq.pos_le_of_mem hmem
  obtain ⟨hlt, hle⟩ := lt_of_matchAt hg (hq.bounded q.pos item hmem).rule_lt hnext hpos hmatch
  refine ⟨hlt, hle, fun next hturn => ?_⟩
  rw [hq.turn?_of_some hg hpos hitem] at hturn
  obtain rfl := Option.some.inj hturn
  refine (Recognition.mem_setAt_expand_iff hq.intact hpos).2 (Or.inl ?_)
  simp only [Recognition.additions, hnext, hmatch, List.mem_singleton]

theorem Sound.once (hq : q.Sound g input) : q.expanded.Nodup := by
  have hnodup := Recognition.nodup_flatMap_entries hq.intact (q.pos + 1)
  rw [List.range_succ, List.flatMap_append, List.flatMap_singleton] at hnodup
  rw [hq.expanded_eq]
  exact hnodup.sublist ((List.Sublist.refl _).append (List.take_sublist _ _))

theorem Sound.inBounds (hg : g.WellFormed) (hq : q.Sound g input) : q.InBounds g input where
  size_sets := hq.intact.size
  furthest_le := by
    obtain ⟨item, hitem⟩ := hq.reaches.exists_mem
    exact hq.pos_le_of_mem hitem
  fits k item hitem := by
    have hfits := hq.bounded k item hitem
    exact ⟨hfits.rule_lt, hfits.dot_le, hfits.start_le⟩
  nodup k := (hq.intact.consistent k).nodup
  size_le k := by
    have hslots : g.slots = (g.rules.toList.map fun rule => rule.body.size + 1).sum := by
      rw [Grammar.slots, ← Array.foldl_toList, Recognition.foldl_add_eq_sum, Nat.zero_add]
    rw [← hslots]
    exact Recognition.size_items_le hq.intact hq.bounded k
  scan _ _ _ hitem hnext hmatch := hq.scan hg hitem hnext hmatch
  turn := hq.exists_turn? hg
  once := hq.once

end Queue

/-- **The queue of every set drains.** The first queue can be set up, every queue that turns lead to
is within its bounds, and after some number of turns the last set is left. Then the chart
is made of the sets as they are, and every item of them has had its turn: set by set, in the order
of insertion. -/
theorem queue_drains {steps : List Step} {start : String} {g : Grammar}
    (h : Grammar.build steps start = .ok g) (input : List Char) :
    ∃ first, Queue.start? g input.length = some first ∧
      (∀ count q, first.turns? g input.toArray count = some q → q.InBounds g input.toArray) ∧
      ∃ count last, first.turns? g input.toArray count = some last ∧
        last.pos = input.length + 1 ∧
        Chart.ofInput g input.toArray =
          ⟨g, input.toArray, last.recognition.sets, last.recognition.furthest⟩ ∧
        last.expanded = (List.range (input.length + 1)).flatMap fun k =>
          ((Chart.ofInput g input.toArray).setAt k).items.toList.map (Prod.mk k) := by
  have hg := Grammar.wellFormed_of_build h
  obtain ⟨hstart, hfirst⟩ := Queue.exists_start? hg input.toArray
  obtain ⟨count, expanded, hend⟩ :=
    Queue.exists_turns?_run hg input.toArray (Nat.le_refl (input.toArray.size + 1))
  have hlast := (hfirst.turns hg hend).expanded_eq
  rw [List.take_zero, List.append_nil] at hlast
  exact ⟨_, hstart, fun count q hturns => (hfirst.turns hg hturns).inBounds hg, count, _, hend,
    rfl, rfl, hlast⟩

/-- The queue for an input of an ambiguous and cyclic grammar. -/
theorem queue_drains_doublingSteps :
    ∃ g first, Grammar.build Grammar.doublingSteps "S" = .ok g ∧
      Queue.start? g 2 = some first ∧
      (∀ count q, first.turns? g #['a', 'a'] count = some q → q.InBounds g #['a', 'a']) ∧
      ∃ count last, first.turns? g #['a', 'a'] count = some last ∧
        last.pos = 3 ∧
        Chart.ofInput g #['a', 'a'] =
          ⟨g, #['a', 'a'], last.recognition.sets, last.recognition.furthest⟩ ∧
        last.expanded = (List.range 3).flatMap fun k =>
          ((Chart.ofInput g #['a', 'a']).setAt k).items.toList.map (Prod.mk k) := by
  obtain ⟨g, hbuild, -⟩ := Grammar.exists_build_doublingSteps
  obtain ⟨first, hdrains⟩ := queue_drains hbuild ['a', 'a']
  exact ⟨g, first, hbuild, hdrains⟩

end Earley
