/-
  `Exact` — the items of a chart are the items that ought to be there.

  An item is valid at a position if its head may begin where it began, and the symbols before its
  dot derive what has been read since. Every item of a chart is valid, because what an expansion
  adds is (`valid_of_mem_additions`). Every valid item is in the chart, because sets that are
  settled follow any derivation to its end (`mem_run_of_spans`), the only special case being a
  non-terminal that derives the empty text: its completion may come too early for items that are
  added behind it, but prediction has moved the dot over it.

  Together, an item is in a chart if and only if it is valid (`mem_run_iff_valid`), and an input
  is accepted if and only if the start symbol derives it (`parse_eq_ok_iff`).
-/
import Earley.Proofs.Chart.Recognition
import Earley.Proofs.Grammar.Nullable

namespace Earley

namespace Item

variable {g : Grammar} {input : Array Char} {j k : Nat} {item : Item} {symbol : Symbol}
  {rest : List Symbol}

/-! ### The symbol behind the dot -/

theorem take_advance (h : item.nextSymbol? g = some symbol) :
    (g.rule item.rule).body.toList.take item.advance.dot =
      (g.rule item.rule).body.toList.take item.dot ++ [symbol] := by
  rw [nextSymbol?, ← Array.getElem?_toList] at h
  rw [advance, List.take_add_one, h, Option.toList_some]

theorem nextSymbol?_eq_some_of_drop
    (h : (g.rule item.rule).body.toList.drop item.dot = symbol :: rest) :
    item.nextSymbol? g = some symbol := by
  rw [nextSymbol?, ← Array.getElem?_toList, ← List.head?_drop, h, List.head?_cons]

theorem drop_advance (h : (g.rule item.rule).body.toList.drop item.dot = symbol :: rest) :
    (g.rule item.rule).body.toList.drop item.advance.dot = rest := by
  rw [advance, ← List.tail_drop, h, List.tail_cons]

theorem nextSymbol?_eq_none_iff :
    item.nextSymbol? g = none ↔ (g.rule item.rule).body.size ≤ item.dot :=
  Array.getElem?_eq_none_iff

/-! ### Valid items -/

/-- Tells that an item is right at a position: its head may begin where it began, and the symbols
before its dot derive the input from there on. -/
structure Valid (g : Grammar) (input : Array Char) (k : Nat) (item : Item) : Prop where
  rule_lt : item.rule < g.rules.size
  dot_le : item.dot ≤ (g.rule item.rule).body.size
  begins : g.Begins input (item.head g) item.start
  spans : g.Spans input ((g.rule item.rule).body.toList.take item.dot) item.start k

theorem valid_predict (hg : g.WellFormed) {id rule : Nat} (hrule : rule ∈ g.alternativesOf id)
    (hbegins : g.Begins input id k) : Valid g input k (predict rule k) := by
  obtain ⟨hlt, rfl⟩ := hg.mem_alternativesOf_iff.1 hrule
  exact ⟨hlt, Nat.zero_le _, hbegins, .nil⟩

theorem Valid.advance (h : Valid g input j item) (hnext : item.nextSymbol? g = some symbol)
    (hsymbol : g.Spans input [symbol] j k) : Valid g input k item.advance where
  rule_lt := h.rule_lt
  dot_le := (Array.getElem?_eq_some_iff.1 hnext).1
  begins := h.begins
  spans := by
    rw [show (g.rule item.advance.rule) = g.rule item.rule from rfl, take_advance hnext]
    exact h.spans.append hsymbol

/-- A non-terminal behind the dot of a valid item may begin there. -/
theorem Valid.begins_next (h : Valid g input k item) {id : Nat}
    (hnext : item.nextSymbol? g = some (.nonterm id)) : g.Begins input id k := by
  rw [nextSymbol?, ← Array.getElem?_toList] at hnext
  obtain ⟨hlt, hget⟩ := List.getElem?_eq_some_iff.1 hnext
  have hbody : (g.rule item.rule).body.toList = (g.rule item.rule).body.toList.take item.dot ++
      .nonterm id :: (g.rule item.rule).body.toList.drop (item.dot + 1) := by
    rw [← hget, ← List.drop_eq_getElem_cons hlt, List.take_append_drop]
  exact .inside h.begins h.rule_lt hbody h.spans

/-- The head of a valid item spans what the item has read, if the item is complete. -/
theorem Valid.spans_head (h : Valid g input k item) (hnext : item.nextSymbol? g = none) :
    g.Spans input [.nonterm (item.head g)] item.start k := by
  have hspans := h.spans
  have hdot : item.dot = (g.rule item.rule).body.size :=
    Nat.le_antisymm h.dot_le (nextSymbol?_eq_none_iff.1 hnext)
  rw [hdot, Grammar.take_size_body] at hspans
  exact .nonterm h.rule_lt hspans .nil

end Item

/-- A non-terminal that derives the empty text spans nothing at every position. -/
theorem Grammar.WellFormed.spans_self_iff {g : Grammar} (hg : g.WellFormed) {input : Array Char}
    {id k : Nat} (hk : k ≤ input.size) :
    g.Spans input [.nonterm id] k k ↔ g.isNullable id = true := by
  rw [spans_iff_generates hk, slice_self, isNullable_eq_true_iff hg]
  simp [hk]

namespace Recognition

variable {g : Grammar} {input : Array Char} {r : Recognition} {i k pos : Nat} {item : Item}
  {α rest : List Symbol}

/-! ### Every item is valid -/

/-- What an expansion adds is valid where it is added. -/
theorem valid_of_mem_additions (hg : g.WellFormed) (h : r.Intact g input.size)
    (hvalid : ∀ k, ∀ item ∈ (r.setAt k).items, item.Valid g input k) (hpos : pos ≤ input.size)
    (hitem : item ∈ (r.setAt pos).items) {p : Nat × Item}
    (hp : p ∈ additions g input pos r item) : p.2.Valid g input p.1 := by
  have hcurrent := hvalid pos item hitem
  unfold additions at hp
  split at hp
  · rename_i id hnext
    rcases List.mem_append.1 hp with hp | hp
    · obtain ⟨_, hpredict, rfl⟩ := List.mem_map.1 hp
      obtain ⟨rule, hrule, rfl⟩ := List.mem_map.1 hpredict
      exact Item.valid_predict hg hrule (hcurrent.begins_next hnext)
    · -- The dot skips a non-terminal that derives the empty text.
      split at hp
      · rename_i hnullable
        rw [List.mem_singleton] at hp
        subst hp
        exact hcurrent.advance hnext ((hg.spans_self_iff hpos).2 hnullable)
      · cases hp
  · rename_i t hnext
    split at hp
    · rename_i length hmatch
      rw [List.mem_singleton] at hp
      subst hp
      exact hcurrent.advance hnext (.terminal hmatch .nil)
    · cases hp
  · -- The item is complete, and moves the dots of those that wait where it began.
    rename_i hnext
    obtain ⟨w, hw, rfl⟩ := List.mem_map.1 hp
    obtain ⟨hmem, hwaiting⟩ := (h.consistent item.start).mem_waitingOn_iff.1 hw
    exact (hvalid item.start w hmem).advance hwaiting (hcurrent.spans_head hnext)

theorem valid_of_mem_run (hg : g.WellFormed) (hitem : item ∈ ((run g input).setAt k).items) :
    item.Valid g input k := by
  have hrun : (run g input).Intact g input.size ∧
      ∀ k, ∀ item ∈ ((run g input).setAt k).items, item.Valid g input k := by
    refine run_induction (P := fun r => r.Intact g input.size ∧
      ∀ k, ∀ item ∈ (r.setAt k).items, item.Valid g input k)
      ⟨intact_start g input.size, ?_⟩ ?_
    · intro k item hitem
      obtain ⟨rfl, hpredict⟩ := mem_setAt_start_iff.1 hitem
      obtain ⟨rule, hrule, rfl⟩ := List.mem_map.1 hpredict
      exact Item.valid_predict hg hrule .start
    · rintro r pos item hpos ⟨h, hvalid⟩ hitem
      refine ⟨h.expand input pos item, fun k item' hitem' => ?_⟩
      rcases (mem_setAt_expand_iff h hpos).1 hitem' with hadd | hold
      · exact valid_of_mem_additions hg h hvalid hpos hitem hadd
      · exact hvalid k item' hold
  exact hrun.2 k item hitem

/-! ### Every valid item is there -/

theorem mem_run_start {rule : Nat} (hrule : rule ∈ g.alternativesOf g.start) :
    Item.predict rule 0 ∈ ((run g input).setAt 0).items := by
  have hrun : (run g input).Intact g input.size ∧
      Item.predict rule 0 ∈ ((run g input).setAt 0).items := by
    refine run_induction (P := fun r => r.Intact g input.size ∧
      Item.predict rule 0 ∈ (r.setAt 0).items) ⟨intact_start g input.size, ?_⟩ ?_
    · exact mem_setAt_start_iff.2 ⟨rfl, List.mem_map_of_mem hrule⟩
    · rintro r pos item hpos ⟨h, hmem⟩ -
      exact ⟨h.expand input pos item, (mem_setAt_expand_iff h hpos).2 (Or.inr hmem)⟩
  exact hrun.2

/-- What follows from an item with a symbol behind the dot is in the sets of a run. -/
theorem mem_run_of_mem_additions (hg : g.WellFormed) (hk : k ≤ input.size)
    (hitem : item ∈ ((run g input).setAt k).items) {symbol : Symbol}
    (hnext : item.nextSymbol? g = some symbol) {p : Nat × Item}
    (hp : p ∈ additions g input k (run g input) item) :
    p.2 ∈ ((run g input).setAt p.1).items := by
  refine settled_run hg input hk hitem (fun hnone => ?_) p hp
  rw [hnext] at hnone
  cases hnone

theorem mem_run_predict (hg : g.WellFormed) (hk : k ≤ input.size)
    (hitem : item ∈ ((run g input).setAt k).items) {id rule : Nat}
    (hnext : item.nextSymbol? g = some (.nonterm id)) (hrule : rule ∈ g.alternativesOf id) :
    Item.predict rule k ∈ ((run g input).setAt k).items := by
  have hadd : (k, Item.predict rule k) ∈ additions g input k (run g input) item := by
    rw [additions, hnext]
    exact List.mem_append_left _ (List.mem_map_of_mem (List.mem_map_of_mem hrule))
  exact mem_run_of_mem_additions hg hk hitem hnext hadd

theorem mem_run_skip (hg : g.WellFormed) (hk : k ≤ input.size)
    (hitem : item ∈ ((run g input).setAt k).items) {id : Nat}
    (hnext : item.nextSymbol? g = some (.nonterm id)) (hnullable : g.isNullable id = true) :
    item.advance ∈ ((run g input).setAt k).items := by
  have hadd : (k, item.advance) ∈ additions g input k (run g input) item := by
    rw [additions, hnext]
    simp [hnullable]
  exact mem_run_of_mem_additions hg hk hitem hnext hadd

theorem mem_run_scan (hg : g.WellFormed) (hk : k ≤ input.size)
    (hitem : item ∈ ((run g input).setAt k).items) {t : Terminal} {length : Nat}
    (hnext : item.nextSymbol? g = some (.terminal t)) (hmatch : t.matchAt input k = some length) :
    item.advance ∈ ((run g input).setAt (k + length)).items := by
  have hadd : (k + length, item.advance) ∈ additions g input k (run g input) item := by
    rw [additions, hnext]
    simp [hmatch]
  exact mem_run_of_mem_additions hg hk hitem hnext hadd

theorem mem_run_complete (hg : g.WellFormed) (hk : k ≤ input.size)
    (hitem : item ∈ ((run g input).setAt k).items) (hnext : item.nextSymbol? g = none)
    (hstart : item.start < k) {w : Item} (hw : w ∈ ((run g input).setAt item.start).items)
    (hwaiting : w.nextSymbol? g = some (.nonterm (item.head g))) :
    w.advance ∈ ((run g input).setAt k).items := by
  refine settled_run hg input hk hitem (fun _ => hstart) (k, w.advance) ?_
  rw [additions, hnext]
  refine List.mem_map.2 ⟨w, ?_, rfl⟩
  exact (((intact_run g input).consistent item.start).mem_waitingOn_iff).2 ⟨hw, hwaiting⟩

/-- An item moves its dot along any derivation of the symbols behind it. The induction is on the
derivation; a non-terminal brings in its own rule and, at the end of that, moves the dot of the
item, unless it derives the empty text and the dot has been moved at once. -/
theorem mem_run_of_spans (hg : g.WellFormed) (hi : i ≤ input.size) (h : g.Spans input α i k)
    (hitem : item ∈ ((run g input).setAt i).items)
    (hdrop : (g.rule item.rule).body.toList.drop item.dot = α ++ rest) :
    { item with dot := item.dot + α.length } ∈ ((run g input).setAt k).items := by
  induction h generalizing item rest with
  | nil => exact hitem
  | @terminal t α i length k ht _ ih =>
    have hnext : item.nextSymbol? g = some (.terminal t) := Item.nextSymbol?_eq_some_of_drop hdrop
    have hle := ((Terminal.matchAt_eq_some_iff hi).1 ht).1
    have hadvance := ih hle (mem_run_scan hg hi hitem hnext ht) (Item.drop_advance hdrop)
    rw [List.length_cons, Nat.add_comm α.length 1, ← Nat.add_assoc]
    exact hadvance
  | @nonterm index α i j k hindex hbody _ ihbody ihrest =>
    have hnext : item.nextSymbol? g = some (.nonterm (g.rule index).head) :=
      Item.nextSymbol?_eq_some_of_drop hdrop
    obtain ⟨hij, hj, hgenerates⟩ := hbody.generates hi
    have hmoved : item.advance ∈ ((run g input).setAt j).items := by
      rcases Nat.lt_or_eq_of_le hij with hlt | rfl
      · -- The rule is predicted here, and its completion finds the item waiting.
        have hrule : index ∈ g.alternativesOf (g.rule index).head :=
          hg.mem_alternativesOf_iff.2 ⟨hindex, rfl⟩
        have hbodydrop : (g.rule index).body.toList.drop (Item.predict index i).dot =
            (g.rule index).body.toList ++ [] := (List.append_nil _).symm
        have hcomplete := ihbody hi (mem_run_predict hg hi hitem hnext hrule) hbodydrop
        refine mem_run_complete hg hj hcomplete ?_ hlt hitem hnext
        rw [Item.nextSymbol?_eq_none_iff]
        simp [Item.predict]
      · -- Its completion may come before the item, but the item has moved on by itself.
        exact mem_run_skip hg hi hitem hnext
          ((hg.spans_self_iff hi).1 (.nonterm hindex hbody .nil))
    have hadvance := ihrest hj hmoved (Item.drop_advance hdrop)
    rw [List.length_cons, Nat.add_comm α.length 1, ← Nat.add_assoc]
    exact hadvance

/-- The rules of a non-terminal are predicted wherever it may begin. -/
theorem mem_run_of_begins (hg : g.WellFormed) {id : Nat} (h : g.Begins input id k) {rule : Nat}
    (hrule : rule ∈ g.alternativesOf id) :
    Item.predict rule k ∈ ((run g input).setAt k).items := by
  induction h generalizing rule with
  | start => exact mem_run_start hrule
  | @inside index id i j before after hhead hindex hbody hbefore ih =>
    have hi := hhead.exists_derives.1
    have hmoved := mem_run_of_spans hg hi hbefore
      (ih (hg.mem_alternativesOf_iff.2 ⟨hindex, rfl⟩)) hbody
    have hdrop : (g.rule index).body.toList.drop (0 + before.length) =
        .nonterm id :: after := by
      rw [hbody, Nat.zero_add, List.drop_left]
    exact mem_run_predict hg (hbefore.generates hi).2.1 hmoved
      (Item.nextSymbol?_eq_some_of_drop hdrop) hrule

/-- **Exactness**: an item is in the set of a position if and only if it is valid there. -/
theorem mem_run_iff_valid (hg : g.WellFormed) :
    item ∈ ((run g input).setAt k).items ↔ item.Valid g input k := by
  constructor
  · exact valid_of_mem_run hg
  · intro h
    have hpredict := mem_run_of_begins hg h.begins
      (hg.mem_alternativesOf_iff.2 ⟨h.rule_lt, rfl⟩)
    have hmoved := mem_run_of_spans hg h.begins.exists_derives.1 h.spans hpredict
      (List.take_append_drop item.dot _).symm
    rw [List.length_take, Array.length_toList, Nat.min_eq_left h.dot_le] at hmoved
    simpa [Item.predict] using hmoved

end Recognition

/-! ### Acceptance -/

namespace Chart

variable {g : Grammar} {input : Array Char} {k : Nat} {item : Item}

theorem setAt_ofInput (g : Grammar) (input : Array Char) (k : Nat) :
    (ofInput g input).setAt k = (Recognition.run g input).setAt k := rfl

theorem setAt?_ofInput (hk : k ≤ input.size) :
    (ofInput g input).setAt? k = some ((ofInput g input).setAt k) :=
  (Recognition.intact_run g input).getElem?_sets hk

/-- Every item of a chart can be listed: no dot is past the end of its rule. -/
theorem exists_display? (hg : g.WellFormed) {s : StateSet}
    (hs : (ofInput g input).setAt? k = some s) (hitem : item ∈ s.items) :
    ∃ line, item.display? g = some line := by
  have hset : (Recognition.run g input).setAt k = s := by
    rw [setAt?, ofInput] at hs
    rw [Recognition.setAt, Array.getD_eq_getD_getElem?, hs, Option.getD_some]
  rw [← hset] at hitem
  have hdot : item.dot ≤ (g.bodyNames item.rule).length := by
    rw [Grammar.bodyNames, List.length_map, Array.length_toList]
    exact (Recognition.valid_of_mem_run hg hitem).dot_le
  exact ⟨_, if_pos hdot⟩

theorem contains_ofInput_iff (hg : g.WellFormed) :
    ((ofInput g input).setAt k).contains item = true ↔ item.Valid g input k := by
  rw [setAt_ofInput, ((Recognition.intact_run g input).consistent k).contains_iff,
    Recognition.mem_run_iff_valid hg]

/-- A rule spans a part of the input in the chart if and only if its head may begin there and its
body derives that part. -/
theorem spans_ofInput_iff (hg : g.WellFormed) {rule start stop : Nat}
    (hrule : rule < g.rules.size) :
    (ofInput g input).spans rule start stop = true ↔
      g.Begins input (g.rule rule).head start ∧
        g.Spans input (g.rule rule).body.toList start stop := by
  rw [spans, contains_ofInput_iff hg]
  constructor
  · intro h
    refine ⟨h.begins, ?_⟩
    rw [← Grammar.take_size_body]
    exact h.spans
  · rintro ⟨hbegins, hspans⟩
    rw [← Grammar.take_size_body] at hspans
    exact ⟨hrule, Nat.le_refl _, hbegins, hspans⟩

/-- Some rule of the start symbol spans the whole input if and only if that is derived. -/
theorem acceptingRule?_ne_none_iff (hg : g.WellFormed) (input : Array Char) :
    (ofInput g input).acceptingRule? ≠ none ↔ g.Generates [.nonterm g.start] input.toList := by
  have hspans : g.Spans input [.nonterm g.start] 0 input.size ↔
      g.Generates [.nonterm g.start] input.toList := by
    rw [Grammar.spans_iff_generates (Nat.zero_le _), slice_zero_size]
    simp
  rw [← hspans, Grammar.spans_nonterm_iff, acceptingRule?, Ne, List.find?_eq_none]
  simp only [not_forall, Decidable.not_not]
  constructor
  · rintro ⟨rule, hrule, hrulespans⟩
    obtain ⟨hlt, hhead⟩ := hg.mem_alternativesOf_iff.1 hrule
    exact ⟨rule, hlt, hhead, ((spans_ofInput_iff hg hlt).1 hrulespans).2⟩
  · rintro ⟨rule, hlt, hhead, hbody⟩
    refine ⟨rule, hg.mem_alternativesOf_iff.2 ⟨hlt, hhead⟩,
      (spans_ofInput_iff hg hlt).2 ⟨?_, hbody⟩⟩
    rw [hhead]
    exact .start

end Chart

theorem Grammar.parse_eq_ok_iff {g : Grammar} (hg : g.WellFormed) {input : List Char} :
    g.parse input = .ok (Chart.ofInput g input.toArray) ↔
      g.Generates [.nonterm g.start] input := by
  have haccept := Chart.acceptingRule?_ne_none_iff hg input.toArray
  rw [List.toList_toArray] at haccept
  rw [← haccept, parse]
  cases (Chart.ofInput g input.toArray).acceptingRule? with
  | none => simp
  | some rule => simp

/-- An input of an ambiguous and cyclic grammar that derives the empty text has a chart. -/
theorem Grammar.exists_parse_doublingSteps :
    ∃ g, build doublingSteps "S" = .ok g ∧
      g.parse ['a', 'a'] = .ok (Chart.ofInput g #['a', 'a']) := by
  obtain ⟨g, hbuild, hstart, -, hrules⟩ := exists_build_doublingSteps
  exact ⟨g, hbuild, (parse_eq_ok_iff (wellFormed_of_build hbuild)).2
    (generates_doubling hstart hrules)⟩

/-- **The chart is exact.** For each position up to the end of the input there is a set, and it
holds exactly the items of a rule of the grammar, with a dot in that rule, that began up to the
position, such that the symbols before the dot derive what has been read since, and such that the
start symbol derives a sentential form with the head behind what had been read before. The input
is accepted, with this chart, exactly if the start symbol derives it. -/
theorem chart_exact {steps : List Step} {start : String} {g : Grammar}
    (h : Grammar.build steps start = .ok g) (input : List Char) :
    (∀ k ≤ input.length, ∃ s, (Chart.ofInput g input.toArray).setAt? k = some s ∧
      ∀ item : Item, item ∈ s.items ↔
        item.rule < g.rules.size ∧ item.dot ≤ (g.rule item.rule).body.size ∧ item.start ≤ k ∧
          g.Yields ((g.rule item.rule).body.toList.take item.dot)
            (slice input.toArray item.start k) ∧
          ∃ ts after,
            g.Derives [.nonterm g.start] (ts.map .terminal ++ .nonterm (item.head g) :: after) ∧
              Terminal.MatchInTurn ts (slice input.toArray 0 item.start)) ∧
      (g.parse input = .ok (Chart.ofInput g input.toArray) ↔
        g.Yields [.nonterm g.start] input) := by
  have hg := Grammar.wellFormed_of_build h
  constructor
  · intro k hk
    have hk : k ≤ input.toArray.size := hk
    refine ⟨_, Chart.setAt?_ofInput hk, fun item => ?_⟩
    rw [Chart.setAt_ofInput, Recognition.mem_run_iff_valid hg]
    constructor
    · rintro ⟨hrule, hdot, hbegins, hspans⟩
      obtain ⟨hstart, hderives⟩ := hbegins.exists_derives
      obtain ⟨hle, -, hgenerates⟩ := hspans.generates hstart
      exact ⟨hrule, hdot, hle, hgenerates.yields, hderives⟩
    · rintro ⟨hrule, hdot, hle, hyields, hderives⟩
      exact ⟨hrule, hdot,
        (Grammar.begins_iff_exists_derives (Nat.le_trans hle hk)).2 hderives,
        (Grammar.yields_iff_generates.1 hyields).spans hle hk rfl⟩
  · rw [Grammar.parse_eq_ok_iff hg, Grammar.yields_iff_generates]

/-- The chart of an ambiguous and cyclic grammar that derives the empty text. -/
theorem chart_exact_doublingSteps :
    ∃ g, Grammar.build Grammar.doublingSteps "S" = .ok g ∧
      (∃ s, (Chart.ofInput g #['a', 'a']).setAt? 1 = some s ∧
        ∀ item : Item, item ∈ s.items ↔
          item.rule < g.rules.size ∧ item.dot ≤ (g.rule item.rule).body.size ∧ item.start ≤ 1 ∧
            g.Yields ((g.rule item.rule).body.toList.take item.dot)
              (slice #['a', 'a'] item.start 1) ∧
            ∃ ts after,
              g.Derives [.nonterm g.start]
                  (ts.map .terminal ++ .nonterm (item.head g) :: after) ∧
                Terminal.MatchInTurn ts (slice #['a', 'a'] 0 item.start)) ∧
      (g.parse ['a', 'a'] = .ok (Chart.ofInput g #['a', 'a']) ↔
        g.Yields [.nonterm g.start] ['a', 'a']) := by
  obtain ⟨g, hbuild, -⟩ := Grammar.exists_build_doublingSteps
  have hexact := chart_exact hbuild ['a', 'a']
  exact ⟨g, hbuild, hexact.1 1 (by decide), hexact.2⟩

end Earley
