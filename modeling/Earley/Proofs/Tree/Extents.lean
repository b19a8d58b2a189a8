/-
  `Extents` — looking ahead in a finished chart is exact.

  The ends of the matches of a non-terminal are, in ascending order, the positions whose state
  sets have it complete (`toList_getD_ends`), and so the candidates for a symbol are all positions
  up to the limit that it covers, from the farthest to the nearest one
  (`mem_toList_candidates_iff`, `pairwise_toList_candidates`).

  `Lays` says that symbols can be laid over the rest of a span, going by the chart. The answer of
  `fits` is that, whatever the memo knows already, as long as all it knows is right
  (`fits_spec`). In the chart of an input, to be covered and to be laid are to be derived
  (`covers_iff_spans`, `lays_iff_spans`).
-/
import Earley.Proofs.Chart.Exact
import Earley.Tree.Extents

namespace Earley

/-! ### Ends up to a limit -/

namespace Ends

variable {stops : Array Nat} {limit stop : Nat}

theorem getElem_le_getElem (h : stops.toList.Pairwise (· < ·)) {i j : Nat} (hij : i ≤ j)
    (hj : j < stops.size) : stops[i] ≤ stops[j] := by
  rcases Nat.lt_or_eq_of_le hij with hlt | rfl
  · exact Nat.le_of_lt (List.pairwise_iff_getElem.1 h i j (by simp; omega) (by simpa) hlt)
  · exact Nat.le_refl _

/-- Halving finds the number of positions that are not beyond the limit. -/
theorem lt_countUpTo_iff (h : stops.toList.Pairwise (· < ·)) (low high : Nat) (hle : low ≤ high)
    (hsize : high ≤ stops.size)
    (hlow : ∀ index (h : index < stops.size), index < low → stops[index] ≤ limit)
    (hhigh : ∀ index (h : index < stops.size), high ≤ index → limit < stops[index])
    (index : Nat) (hindex : index < stops.size) :
    index < countUpTo stops limit low high ↔ stops[index] ≤ limit := by
  fun_induction countUpTo stops limit low high with
  | case1 low high hlt middle hmiddle ih =>
    have hbetween : low ≤ middle ∧ middle < high := by omega
    have hget : stops.getD middle 0 = stops[middle] := by
      simp [show middle < stops.size by omega]
    rw [hget] at hmiddle
    -- Nothing in front of the middle is beyond the limit, as the positions ascend.
    refine ih (by omega) hsize (fun i hi hle => ?_) hhigh
    exact Nat.le_trans (getElem_le_getElem h (Nat.lt_succ_iff.1 hle) (by omega)) hmiddle
  | case2 low high hlt middle hmiddle ih =>
    have hbetween : low ≤ middle ∧ middle < high := by omega
    have hget : stops.getD middle 0 = stops[middle] := by
      simp [show middle < stops.size by omega]
    rw [hget] at hmiddle
    -- Nothing from the middle on is within the limit.
    refine ih (by omega) (by omega) hlow (fun i hi hle => ?_)
    exact Nat.lt_of_lt_of_le (Nat.lt_of_not_le hmiddle) (getElem_le_getElem h hle hi)
  | case3 low high hge =>
    constructor
    · exact hlow index hindex
    · intro hle'
      by_contra hnot
      exact absurd hle' (Nat.not_le_of_lt (hhigh index hindex (by omega)))

theorem lt_count_upTo_iff (h : stops.toList.Pairwise (· < ·)) {index : Nat}
    (hindex : index < stops.size) : index < (upTo stops limit).count ↔ stops[index] ≤ limit :=
  lt_countUpTo_iff h 0 stops.size (Nat.zero_le _) (Nat.le_refl _)
    (fun _ _ hlt => absurd hlt (Nat.not_lt_zero _))
    (fun _ hlt hge => absurd hlt (Nat.not_lt_of_le hge)) index hindex

theorem mem_toList_upTo_iff (h : stops.toList.Pairwise (· < ·)) :
    stop ∈ (upTo stops limit).toList ↔ stop ∈ stops ∧ stop ≤ limit := by
  rw [toList, List.mem_reverse, List.mem_take_iff_getElem, Array.mem_iff_getElem]
  constructor
  · rintro ⟨index, hindex, rfl⟩
    have hlt : index < stops.size := Nat.lt_of_lt_of_le hindex (Nat.min_le_right _ _)
    have hcount : index < (upTo stops limit).count :=
      Nat.lt_of_lt_of_le hindex (Nat.min_le_left _ _)
    exact ⟨⟨index, hlt, rfl⟩, (lt_count_upTo_iff h hlt).1 hcount⟩
  · rintro ⟨⟨index, hlt, rfl⟩, hle⟩
    exact ⟨index, Nat.lt_min.2 ⟨(lt_count_upTo_iff h hlt).2 hle, hlt⟩, rfl⟩

/-- The positions that are left are tried from the farthest to the nearest one. -/
theorem pairwise_toList_upTo (h : stops.toList.Pairwise (· < ·)) :
    (upTo stops limit).toList.Pairwise (· > ·) := by
  rw [toList, List.pairwise_reverse]
  exact h.sublist (List.take_sublist _ _)

end Ends

namespace Extents

variable {x : Extents} {c : Chart} {goal : Goal} {rule dot pos limit stop : Nat}
  {symbol : Symbol} {symbols : List Symbol} {memo : Memo}

/-! ### The ends in a chart -/

theorem getD_foldl_extend {matches_ : List (Nat × Nat)} (h : matches_.Nodup)
    (ends : Std.HashMap (Nat × Nat) (Array Nat)) (stop : Nat) (key : Nat × Nat) :
    (matches_.foldl (fun ends match_ => ends.alter match_ (extend stop)) ends).getD key #[] =
      if key ∈ matches_ then (ends.getD key #[]).push stop else ends.getD key #[] := by
  induction matches_ generalizing ends with
  | nil => simp
  | cons match_ matches_ ih =>
    obtain ⟨hnew, h⟩ := List.nodup_cons.1 h
    rw [List.foldl_cons, ih h, Std.HashMap.getD_alter]
    by_cases hkey : match_ = key
    · subst hkey
      simp [hnew, extend, Std.HashMap.getD_eq_getD_getElem?]
    · simp [hkey, Ne.symm hkey]

/-- The ends of a match are the positions whose sets have it complete. -/
theorem toList_getD_ends (c : Chart) (id pos : Nat) :
    ((ofChart c).ends.getD (id, pos) #[]).toList =
      (List.range c.sets.size).filter fun stop => (c.setAt stop).hasCompleted id pos := by
  -- The induction is on the number of sets that have been gone through.
  have hprefix : ∀ count, (((List.range count).foldl
      (fun ends stop => addSet ends (c.setAt stop) stop) ∅).getD (id, pos) #[]).toList =
        (List.range count).filter fun stop => (c.setAt stop).hasCompleted id pos := by
    intro count
    induction count with
    | zero => simp
    | succ count ih =>
      rw [List.range_succ, List.foldl_append, List.filter_append, ← ih]
      simp only [List.foldl_cons, List.foldl_nil, addSet]
      rw [getD_foldl_extend (StateSet.nodup_completions _)]
      simp only [StateSet.mem_completions_iff]
      by_cases hcompleted : (c.setAt count).hasCompleted id pos = true <;> simp [hcompleted]
  exact hprefix c.sets.size

theorem pairwise_ends (c : Chart) (id pos : Nat) :
    ((ofChart c).ends.getD (id, pos) #[]).toList.Pairwise (· < ·) := by
  rw [toList_getD_ends]
  exact List.pairwise_lt_range.filter _

/-! ### Candidates -/

/-- Tells that a symbol can be laid from `pos` to `stop`, going by the chart. -/
def Covers (x : Extents) (symbol : Symbol) (pos stop : Nat) : Prop :=
  match symbol with
  | .nonterm id => (x.chart.setAt stop).hasCompleted id pos = true
  | .terminal t => t.matchAt x.chart.input pos = some (stop - pos) ∧ pos ≤ stop

theorem lt_size_of_hasCompleted {id : Nat} (h : (c.setAt stop).hasCompleted id pos = true) :
    stop < c.sets.size := by
  by_contra hge
  rw [Chart.setAt, Array.getD_eq_getD_getElem?, Array.getElem?_eq_none (Nat.le_of_not_lt hge)] at h
  simp [StateSet.hasCompleted, StateSet.empty] at h

/-- The candidates are the positions up to the limit that the symbol covers. -/
theorem mem_toList_candidates_iff :
    stop ∈ ((ofChart c).candidates symbol pos limit).toList ↔
      stop ≤ limit ∧ (ofChart c).Covers symbol pos stop := by
  cases symbol with
  | nonterm id =>
    rw [candidates, Ends.mem_toList_upTo_iff (pairwise_ends c id pos), ← Array.mem_toList_iff,
      toList_getD_ends, List.mem_filter, List.mem_range]
    constructor
    · rintro ⟨⟨-, hcompleted⟩, hle⟩
      exact ⟨hle, hcompleted⟩
    · rintro ⟨hle, hcompleted⟩
      exact ⟨⟨lt_size_of_hasCompleted hcompleted, hcompleted⟩, hle⟩
  | terminal t =>
    rw [candidates, Covers]
    cases hmatch : t.matchAt (ofChart c).chart.input pos with
    | none => simp [Ends.toList, Ends.empty]
    | some length =>
      by_cases hle : pos + length ≤ limit
      · simp only [hle, if_true, Ends.toList, Ends.single, Option.some.injEq]
        simp
        omega
      · simp only [hle, if_false, Ends.toList, Ends.empty, Option.some.injEq]
        simp
        omega

theorem pairwise_toList_candidates :
    ((ofChart c).candidates symbol pos limit).toList.Pairwise (· > ·) := by
  cases symbol with
  | nonterm id => exact Ends.pairwise_toList_upTo (pairwise_ends c id pos)
  | terminal t =>
    rw [candidates]
    split
    · split
      · exact List.pairwise_singleton _ _
      · exact List.Pairwise.nil
    · exact List.Pairwise.nil

/-! ### Laying the rest of a rule -/

/-- Tells that `symbols`, those of the rule from `dot` on, can be laid from `pos` to the end of
`goal`, going by the chart. -/
def Lays (x : Extents) (goal : Goal) (rule : Nat) : List Symbol → (dot pos : Nat) → Prop
  | [], _, pos => pos = goal.stop
  | symbol :: symbols, dot, pos =>
    ∃ stop ≤ goal.stop, x.Covers symbol pos stop ∧ x.reaches goal rule (dot + 1) stop = true ∧
      x.Lays goal rule symbols (dot + 1) stop

/-- Tells that all that a memo knows is right. -/
def Agrees (x : Extents) (goal : Goal) (rule : Nat) (memo : Memo) : Prop :=
  ∀ dot pos known, memo[(dot, pos)]? = some known →
    (known = true ↔
      x.Lays goal rule ((x.chart.grammar.rule rule).body.toList.drop dot) dot pos)

theorem agrees_empty (x : Extents) (goal : Goal) (rule : Nat) : x.Agrees goal rule ∅ := by
  intro dot pos known h
  simp at h

theorem Agrees.insert {found : Bool} (h : x.Agrees goal rule memo)
    (hfound : found = true ↔
      x.Lays goal rule ((x.chart.grammar.rule rule).body.toList.drop dot) dot pos) :
    x.Agrees goal rule (memo.insert (dot, pos) found) := by
  intro dot' pos' known hknown
  rw [Std.HashMap.getElem?_insert] at hknown
  split at hknown
  · rename_i hkey
    rw [beq_iff_eq, Prod.mk.injEq] at hkey
    obtain ⟨rfl, rfl⟩ := hkey
    cases hknown
    exact hfound
  · exact h dot' pos' known hknown

/-- Trying the ends one after another finds one that is right, if there is one, and keeps the memo
as good as each trial does. -/
theorem anyEnd_spec {p : Nat → Memo → Bool × Memo} {M : Memo → Prop} {P : Nat → Prop}
    (hp : ∀ stop memo, M memo → M (p stop memo).2 ∧ ((p stop memo).1 = true ↔ P stop))
    (ends : Ends) (hmemo : M memo) :
    M (anyEnd p ends memo).2 ∧ ((anyEnd p ends memo).1 = true ↔ ∃ stop ∈ ends.toList, P stop) := by
  fun_induction anyEnd p ends memo with
  | case1 ends memo hnext =>
    rw [Ends.toList_of_next?_eq_none hnext]
    exact ⟨hmemo, by simp⟩
  | case2 ends memo stop rest hnext memo' htrial =>
    obtain ⟨hmemo', hiff⟩ := hp stop memo hmemo
    rw [htrial] at hmemo' hiff
    rw [Ends.toList_of_next?_eq_some hnext]
    exact ⟨hmemo', by simp [hiff.1 rfl]⟩
  | case3 ends memo stop rest hnext memo' htrial _ ih =>
    obtain ⟨hmemo', hiff⟩ := hp stop memo hmemo
    rw [htrial] at hmemo' hiff
    have hnot : ¬P stop := fun hP => Bool.false_ne_true (hiff.2 hP)
    rw [Ends.toList_of_next?_eq_some hnext]
    simpa [hnot] using ih hmemo'

/-- **Looking ahead is exact**: `fits` tells whether the symbols can be laid, and only adds to the
memo what is right. The induction is on the symbols; a memo entry answers at once. -/
theorem fits_spec (hsymbols : (c.grammar.rule rule).body.toList.drop dot = symbols)
    (hmemo : (ofChart c).Agrees goal rule memo) (pos : Nat) :
    (ofChart c).Agrees goal rule ((ofChart c).fits goal rule symbols dot pos memo).2 ∧
      (((ofChart c).fits goal rule symbols dot pos memo).1 = true ↔
        (ofChart c).Lays goal rule symbols dot pos) := by
  induction symbols generalizing dot pos memo with
  | nil => exact ⟨hmemo, by simp [fits, Lays]⟩
  | cons symbol symbols ih =>
    rw [fits]
    split
    · rename_i known hknown
      have hagrees := hmemo dot pos known hknown
      rw [show ((ofChart c).chart.grammar.rule rule).body.toList.drop dot = symbol :: symbols
        from hsymbols] at hagrees
      exact ⟨hmemo, hagrees⟩
    · have hdrop : (c.grammar.rule rule).body.toList.drop (dot + 1) = symbols := by
        rw [← List.tail_drop, hsymbols, List.tail_cons]
      -- A trial asks the chart first, and goes on with the rest of the rule if the chart agrees.
      have htrial : ∀ stop memo, (ofChart c).Agrees goal rule memo →
          (ofChart c).Agrees goal rule
              (if (ofChart c).reaches goal rule (dot + 1) stop then
                (ofChart c).fits goal rule symbols (dot + 1) stop memo else (false, memo)).2 ∧
            ((if (ofChart c).reaches goal rule (dot + 1) stop then
                (ofChart c).fits goal rule symbols (dot + 1) stop memo
              else (false, memo)).1 = true ↔
              (ofChart c).reaches goal rule (dot + 1) stop = true ∧
                (ofChart c).Lays goal rule symbols (dot + 1) stop) := by
        intro stop memo hmemo
        split
        · rename_i hreaches
          obtain ⟨hmemo', hiff⟩ := ih hdrop hmemo stop
          exact ⟨hmemo', by simp [hreaches, hiff]⟩
        · rename_i hreaches
          exact ⟨hmemo, by simp [hreaches]⟩
      obtain ⟨hmemo', hiff⟩ :=
        anyEnd_spec htrial ((ofChart c).candidates symbol pos goal.stop) hmemo
      have hlays : (∃ stop ∈ ((ofChart c).candidates symbol pos goal.stop).toList,
          (ofChart c).reaches goal rule (dot + 1) stop = true ∧
            (ofChart c).Lays goal rule symbols (dot + 1) stop) ↔
          (ofChart c).Lays goal rule (symbol :: symbols) dot pos := by
        simp only [Lays, mem_toList_candidates_iff, and_assoc]
      rw [hlays] at hiff
      refine ⟨hmemo'.insert ?_, hiff⟩
      rw [show ((ofChart c).chart.grammar.rule rule).body.toList.drop dot = symbol :: symbols
        from hsymbols]
      exact hiff

/-! ### Derivations in the chart of an input -/

section Input

variable {g : Grammar} {input : Array Char}

/-- The extents of the chart of an input. -/
abbrev ofInput (g : Grammar) (input : Array Char) : Extents := ofChart (.ofInput g input)

/-- What is covered does not end before it begins. -/
theorem le_of_covers (hg : g.WellFormed) (h : (ofInput g input).Covers symbol pos stop) :
    pos ≤ stop := by
  cases symbol with
  | terminal t => exact h.2
  | nonterm id =>
    rw [Covers, show (ofInput g input).chart = Chart.ofInput g input from rfl,
      Chart.setAt_ofInput, ((Recognition.intact_run g input).consistent stop).hasCompleted_iff] at h
    obtain ⟨item, hitem, -, -, rfl⟩ := h
    have hvalid := Recognition.valid_of_mem_run hg hitem
    exact (hvalid.spans.generates hvalid.begins.le_size).1

/-- A symbol is covered exactly if it derives that part of the input. -/
theorem covers_iff_spans (hg : g.WellFormed) (hpos : pos ≤ input.size)
    (hbegins : ∀ id, symbol = .nonterm id → g.Begins input id pos) :
    (ofInput g input).Covers symbol pos stop ↔ g.Spans input [symbol] pos stop := by
  cases symbol with
  | terminal t =>
    constructor
    · rintro ⟨hmatch, hle⟩
      have hspans : g.Spans input [.terminal t] pos (pos + (stop - pos)) := .terminal hmatch .nil
      rwa [Nat.add_sub_cancel' hle] at hspans
    · intro hspans
      cases hspans with
      | terminal hmatch hrest =>
        obtain rfl := Grammar.spans_nil_iff.1 hrest
        exact ⟨by rwa [Nat.add_sub_cancel_left], Nat.le_add_right _ _⟩
  | nonterm id =>
    rw [Covers, show (ofInput g input).chart = Chart.ofInput g input from rfl,
      Chart.setAt_ofInput,
      ((Recognition.intact_run g input).consistent stop).hasCompleted_iff,
      Grammar.spans_nonterm_iff]
    constructor
    · rintro ⟨item, hitem, hnext, rfl, rfl⟩
      exact Grammar.spans_nonterm_iff.1 ((Recognition.valid_of_mem_run hg hitem).spans_head hnext)
    · -- A rule that derives this part of the input is complete in the set at its end.
      rintro ⟨rule, hlt, rfl, hbody⟩
      refine ⟨⟨rule, (g.rule rule).body.size, pos⟩, ?_, ?_, rfl, rfl⟩
      · refine (Recognition.mem_run_iff_valid hg).2 ⟨hlt, Nat.le_refl _, hbegins _ rfl, ?_⟩
        rwa [← Grammar.take_size_body] at hbody
      · exact Item.nextSymbol?_eq_none_iff.2 (Nat.le_refl _)

/-- The chart holds a rule with a dot exactly if the symbols before the dot are derived. -/
theorem reaches_iff_spans (hg : g.WellFormed) (hrule : rule ∈ g.alternativesOf goal.nonterm)
    (hgoal : g.Begins input goal.nonterm goal.start) (hdot : dot ≤ (g.rule rule).body.size) :
    (ofInput g input).reaches goal rule dot pos = true ↔
      g.Spans input ((g.rule rule).body.toList.take dot) goal.start pos := by
  obtain ⟨hlt, hhead⟩ := hg.mem_alternativesOf_iff.1 hrule
  rw [reaches, show (ofInput g input).chart = Chart.ofInput g input from rfl,
    Chart.contains_ofInput_iff hg]
  constructor
  · exact fun h => h.spans
  · intro h
    rw [← hhead] at hgoal
    exact ⟨hlt, hdot, hgoal, h⟩

/-- Behind symbols that are derived, the others can be laid exactly if they derive the rest. -/
theorem lays_iff_spans (hg : g.WellFormed) (hrule : rule ∈ g.alternativesOf goal.nonterm)
    (hgoal : g.Begins input goal.nonterm goal.start)
    (hsymbols : (g.rule rule).body.toList.drop dot = symbols)
    (hbefore : g.Spans input ((g.rule rule).body.toList.take dot) goal.start pos) :
    (ofInput g input).Lays goal rule symbols dot pos ↔ g.Spans input symbols pos goal.stop := by
  induction symbols generalizing dot pos with
  | nil => rw [Lays, Grammar.spans_nil_iff]
  | cons symbol symbols ih =>
    obtain ⟨hlt, hhead⟩ := hg.mem_alternativesOf_iff.1 hrule
    have hbody : (g.rule rule).body.toList =
        (g.rule rule).body.toList.take dot ++ symbol :: symbols := by
      rw [← hsymbols, List.take_append_drop]
    have hpos : pos ≤ input.size := (hbefore.generates hgoal.le_size).2.1
    have hbegins : ∀ id, symbol = .nonterm id → g.Begins input id pos := by
      rintro id rfl
      rw [← hhead] at hgoal
      exact .inside hgoal hlt hbody hbefore
    have htake : (g.rule rule).body.toList.take (dot + 1) =
        (g.rule rule).body.toList.take dot ++ [symbol] := by
      rw [List.take_add_one, ← List.head?_drop, hsymbols, List.head?_cons, Option.toList_some]
    have hdot : dot + 1 ≤ (g.rule rule).body.size := by
      have hlength := congrArg List.length hsymbols
      rw [List.length_drop, Array.length_toList, List.length_cons] at hlength
      omega
    have hdrop : (g.rule rule).body.toList.drop (dot + 1) = symbols := by
      rw [← List.tail_drop, hsymbols, List.tail_cons]
    have hmoved {stop : Nat} (h : g.Spans input [symbol] pos stop) :
        g.Spans input ((g.rule rule).body.toList.take (dot + 1)) goal.start stop := by
      rw [htake]
      exact hbefore.append h
    constructor
    · rintro ⟨stop, -, hcovers, -, hlays⟩
      have hspans := (covers_iff_spans hg hpos hbegins).1 hcovers
      exact hspans.append ((ih hdrop (hmoved hspans)).1 hlays)
    · -- The end of the symbol is within the goal, and the chart has the dot behind it there.
      intro hspans
      obtain ⟨stop, hsymbol, hrest⟩ := Grammar.exists_of_spans_append
        (show g.Spans input ([symbol] ++ symbols) pos goal.stop from hspans)
      have hle := (hrest.generates (hsymbol.generates hpos).2.1).1
      exact ⟨stop, hle, (covers_iff_spans hg hpos hbegins).2 hsymbol,
        (reaches_iff_spans hg hrule hgoal hdot).2 (hmoved hsymbol),
        (ih hdrop (hmoved hsymbol)).2 hrest⟩

end Input

end Extents

end Earley
