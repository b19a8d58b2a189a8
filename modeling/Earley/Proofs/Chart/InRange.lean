/-
  `InRange` — recognition never reads out of range.

  As long as the items in the sets have shapes that fit, the checked expansion of an item is the
  expansion (`expand?_eq`): its rule is there, and so are the non-terminals and the sets that it
  leads to, and what a table says of the places of items is right. The same goes for the start
  (`start?_eq`).
-/
import Earley.Proofs.Chart.Checked
import Earley.Proofs.Chart.Recognition
import Earley.Proofs.Grammar.Nullable

namespace Earley

theorem mapM_eq_some_filterMap {α β : Type} {f : α → Option β} {l : List α}
    (h : ∀ a ∈ l, (f a).isSome) : l.mapM f = some (l.filterMap f) := by
  induction l with
  | nil => rfl
  | cons a l ih =>
    obtain ⟨ha, hl⟩ := List.forall_mem_cons.1 h
    obtain ⟨b, hb⟩ := Option.isSome_iff_exists.1 ha
    rw [List.mapM_cons, hb, ih hl, List.filterMap_cons_some hb]
    rfl

/-- The places that a table keeps are those of items. -/
theorem StateSet.Consistent.waitingOn?_eq {g : Grammar} {s : StateSet} (h : s.Consistent g)
    (nonterm : Nat) : s.waitingOn? nonterm = some (s.waitingOn nonterm) := by
  refine mapM_eq_some_filterMap fun place hplace => ?_
  have hlt := h.places_lt nonterm place (Array.mem_toList_iff.1 hplace)
  rw [Array.getElem?_eq_getElem hlt, Option.isSome_some]

namespace Recognition

variable {g : Grammar} {input : Array Char} {r : Recognition} {pos : Nat} {item : Item}

/-! ### Insertions -/

theorem insert?_eq {length : Nat} (h : r.Intact g length) (hpos : pos ≤ length) (item : Item)
    (hrule : item.rule < g.rules.size) : r.insert? g pos item = some (r.insert g pos item) := by
  have hlt : pos < r.sets.size := by
    rw [h.size]
    omega
  exact if_pos ⟨hlt, hrule⟩

theorem insertAll?_eq {length : Nat} (h : r.Intact g length) (hpos : pos ≤ length)
    (items : List Item) (hitems : ∀ item ∈ items, item.rule < g.rules.size) :
    r.insertAll? g pos items = some (r.insertAll g pos items) := by
  induction items generalizing r with
  | nil => rfl
  | cons item items ih =>
    obtain ⟨hitem, hitems⟩ := List.forall_mem_cons.1 hitems
    rw [insertAll?, List.foldlM_cons, insert?_eq h hpos item hitem]
    exact ih (h.insert pos item) hitems

/-! ### Expansions -/

/-- The rules of a non-terminal can be predicted. -/
theorem insertAll?_predictions_eq {length : Nat} (hg : g.WellFormed) (h : r.Intact g length)
    (hpos : pos ≤ length) (id : Nat) :
    r.insertAll? g pos (predictions g id pos) =
      some (r.insertAll g pos (predictions g id pos)) := by
  refine insertAll?_eq h hpos _ fun item hitem => ?_
  obtain ⟨rule, hrule, rfl⟩ := List.mem_map.1 hitem
  exact (hg.mem_alternativesOf_iff.1 hrule).1

/-- A non-terminal behind a dot is in the tables, and has a rule. -/
theorem predict?_eq (hg : g.WellFormed) {length : Nat} (h : r.Intact g length)
    (hpos : pos ≤ length) (hrule : item.rule < g.rules.size) {id : Nat}
    (hnext : item.nextSymbol? g = some (.nonterm id)) :
    r.predict? g pos item id = some (r.predict g pos item id) := by
  have hbody : .nonterm id ∈ (g.rule item.rule).body := Array.mem_of_getElem? hnext
  have hused : id ∈ Builder.used g.start g.rules :=
    Builder.mem_used_of_mem_body (Grammar.rule_mem hrule) hbody
  have halternatives := Grammar.getElem?_alternatives (hg.productive id hused)
  have hnullable := Grammar.getElem?_nullable hg
    (hg.nonterm_lt _ (Grammar.rule_mem hrule) id hbody)
  have hpredictions := insertAll?_predictions_eq hg h hpos id
  have hstep := insert?_eq (h.insertAll pos (predictions g id pos)) hpos item.advance hrule
  rw [predictions] at hpredictions
  simp only [predict?, halternatives, hpredictions, hnullable, Option.bind_eq_bind,
    Option.bind_some]
  rw [predict]
  split
  · exact hstep
  · rfl

/-- What a terminal matches is in the input. -/
theorem scan?_eq (h : r.Intact g input.size) (hpos : pos ≤ input.size)
    (hrule : item.rule < g.rules.size) (t : Terminal) :
    r.scan? g input pos item t = some (r.scan g input pos item t) := by
  rw [scan?, if_pos hpos, scan]
  cases hmatch : t.matchAt input pos with
  | none => rfl
  | some length =>
    have hle := ((Terminal.matchAt_eq_some_iff hpos).1 hmatch).1
    have hinsert := insert?_eq h hle item.advance hrule
    simp only [hinsert, Option.bind_eq_bind, Option.bind_some]

/-- The items that wait for the head of a complete one are in a set that is there. -/
theorem complete?_eq (h : r.Intact g input.size) (hr : r.Bounded g) (hpos : pos ≤ input.size)
    (hfits : Fits g pos item) : r.complete? g pos item = some (r.complete g pos item) := by
  have hset := h.getElem?_sets (Nat.le_trans hfits.start_le hpos)
  have hwaiting := (h.consistent item.start).waitingOn?_eq (item.head g)
  have hrules : ∀ item' ∈ ((r.setAt item.start).waitingOn (item.head g)).map Item.advance,
      item'.rule < g.rules.size := by
    intro item' hitem'
    obtain ⟨w, hw, rfl⟩ := List.mem_map.1 hitem'
    exact (hr item.start w ((h.consistent item.start).mem_waitingOn_iff.1 hw).1).rule_lt
  have hinsert := insertAll?_eq h hpos _ hrules
  rw [Item.head] at hwaiting hinsert
  simp only [complete?, Grammar.getElem?_rules hfits.rule_lt, hset, hwaiting, hinsert,
    Option.bind_eq_bind, Option.bind_some]
  rfl

/-- **No expansion reads out of range**: every checked expansion is the expansion itself. -/
theorem expand?_eq (hg : g.WellFormed) (h : r.Intact g input.size) (hr : r.Bounded g)
    (hpos : pos ≤ input.size) (hitem : item ∈ (r.setAt pos).items) :
    r.expand? g input pos item = some (r.expand g input pos item) := by
  have hfits := hr pos item hitem
  simp only [expand?, expand, Item.nextSymbol?, Grammar.getElem?_rules hfits.rule_lt,
    Option.bind_eq_bind, Option.bind_some]
  cases hnext : (g.rule item.rule).body[item.dot]? with
  | none => exact complete?_eq h hr hpos hfits
  | some symbol =>
    cases symbol with
    | nonterm id => exact predict?_eq hg h hpos hfits.rule_lt hnext
    | terminal t => exact scan?_eq h hpos hfits.rule_lt t

/-- The start symbol has rules to begin with. -/
theorem start?_eq (hg : g.WellFormed) (length : Nat) : start? g length = some (start g length) := by
  have hused : g.start ∈ Builder.used g.start g.rules := Builder.mem_used_start g.start g.rules
  have halternatives := Grammar.getElem?_alternatives (hg.productive g.start hused)
  have hinsert := insertAll?_predictions_eq hg (intact_empty g length) (Nat.zero_le _) g.start
  rw [predictions] at hinsert
  simp only [start?, halternatives, hinsert, Option.bind_eq_bind, Option.bind_some]
  rfl

end Recognition

end Earley
