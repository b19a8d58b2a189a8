/-
  `Fitting` — looking ahead tells how a rule can be laid, by the chart alone.

  The builder of trees asks two things of a chart before it commits itself: where a symbol may end
  (`Candidates.next?`), and whether the rest of a rule still fits (`Extents.lookAhead?`). Both have
  an answer that mentions neither tables nor memos. A symbol spans a part of the input if it is a
  terminal that matches just that part, or if some rule of it is complete there
  (`Chart.SymbolSpans`); and the rest of a rule fits if there are places for all of its dots, such
  that the chart holds the rule with each dot at its place (`Chart.LaidAt`).

  `look_ahead_exact` says that the answers are these, for every memo that calls before may have
  left behind (`Extents.Filled`), and that a walker gives each of the ends once, the farthest
  first, and from then on none.
-/
import Earley.Proofs.Tree.Candidates
import Earley.Proofs.Tree.Rebuild

namespace Earley

/-! ### What a chart says of symbols and rules -/

namespace Chart

/-- Tells that a symbol spans the input from `pos` to `stop`, going by the chart: a terminal
matches exactly that part, and a non-terminal has a rule that began at `pos` and is complete in the
set at `stop`. -/
def SymbolSpans (c : Chart) (pos stop : Nat) : Symbol → Prop
  | .terminal t => pos ≤ stop ∧ stop ≤ c.input.size ∧ t.Matches (slice c.input pos stop)
  | .nonterm id => ∃ rule ∈ c.grammar.alternativesOf id,
      ⟨rule, (c.grammar.rule rule).body.size, pos⟩ ∈ (c.setAt stop).items

/-- Tells that the symbols of a rule from `dot` on can be laid from `pos` to the end of a goal, with
`places` the place of each dot: the symbol behind a dot spans the input from there to the place of
the next dot, and the set at that place holds the rule, begun at the start of the goal, with that
next dot. -/
structure LaidAt (c : Chart) (goal : Goal) (rule dot pos : Nat) (places : Nat → Nat) : Prop where
  first : places dot = pos
  last : places (c.grammar.rule rule).body.size = goal.stop
  ascending : ∀ j, dot ≤ j → j < (c.grammar.rule rule).body.size → places j ≤ places (j + 1)
  item_mem : ∀ j, dot ≤ j → j < (c.grammar.rule rule).body.size →
    ⟨rule, j + 1, goal.start⟩ ∈ (c.setAt (places (j + 1))).items
  spans : ∀ j symbol, dot ≤ j → (c.grammar.rule rule).body[j]? = some symbol →
    c.SymbolSpans (places j) (places (j + 1)) symbol

end Chart

namespace Extents

/-- The memos that are left behind when it is asked, again and again, whether the rest of a rule
fits in a goal, from whatever dots and positions. -/
inductive Filled (x : Extents) (goal : Goal) (rule : Nat) : Memo → Prop
  | empty : Filled x goal rule ∅
  | ask {memo memo' : Memo} {dot pos : Nat} {found : Bool} (h : Filled x goal rule memo)
    (hasked : x.lookAhead? ⟨rule, goal.start, goal.stop⟩ dot pos memo = some (found, memo')) :
    Filled x goal rule memo'

section Memo

variable {x : Extents} {g : Grammar} {input : Array Char} {goal : Goal} {rule dot pos limit : Nat}
  {symbol : Symbol} {memo memo' : Memo} {found : Bool}

/-- A part of the input that is out of order has no ends. -/
theorem longest?_of_lt (h : limit < pos) :
    x.longest? symbol pos limit = none ∨ x.longest? symbol pos limit = some none := by
  have hnot : ¬pos ≤ limit := Nat.not_le_of_lt h
  cases symbol with
  | terminal t =>
    rw [longest?, if_neg fun hrange => hnot hrange.1]
    exact Or.inl rfl
  | nonterm id =>
    rw [longest?]
    split
    · exact Or.inr rfl
    · rw [if_neg hnot]
      exact Or.inl rfl

theorem anyNext?_of_lt {p : Nat → Memo → Option (Bool × Memo)} (h : limit < pos)
    (hasked : (Candidates.upTo symbol pos limit).anyNext? x p memo = some (found, memo')) :
    found = false ∧ memo' = memo := by
  rcases @longest?_of_lt x pos limit symbol h with hlongest | hlongest
  · have hnext : (Candidates.upTo symbol pos limit).next? x = none := by
      simp [Candidates.upTo, Candidates.next?, hlongest]
    rw [Candidates.anyNext?] at hasked
    split at hasked
    · cases hasked
    all_goals
      rename_i hsome
      rw [hnext] at hsome
      cases hsome
  · have hnext : (Candidates.upTo symbol pos limit).next? x =
        some (none, ⟨pos, none, symbol⟩) := by
      simp [Candidates.upTo, Candidates.next?, hlongest]
    rw [Candidates.anyNext?_of_next?_eq_none hnext] at hasked
    cases hasked
    exact ⟨rfl, rfl⟩

/-- At the end of a rule, or past it, nothing is noted. -/
theorem memo_eq_of_lookAhead? {span : RuleSpan} {r : Rule}
    (hrule : x.chart.grammar.rules[span.rule]? = some r) (hdot : r.body[dot]? = none)
    (h : x.lookAhead? span dot pos memo = some (found, memo')) : memo' = memo := by
  rw [lookAhead?] at h
  split at h
  · cases h
  · rename_i r' hr'
    obtain rfl : r = r' := Option.some.inj (hrule.symm.trans hr')
    split at h
    · cases h
      rfl
    · split at h
      · cases h
        rfl
      · split at h
        · cases h
        · rename_i symbol hsymbol
          rw [hdot] at hsymbol
          cases hsymbol

/-- What is noted is right, from whatever dot and position it is asked. -/
theorem agrees_of_lookAhead? (hg : g.WellFormed) (hstop : goal.stop ≤ input.size)
    (hmemo : (ofInput g input).Agrees goal rule memo)
    (h : (ofInput g input).lookAhead? ⟨rule, goal.start, goal.stop⟩ dot pos memo =
      some (found, memo')) : (ofInput g input).Agrees goal rule memo' := by
  have hrule : rule < g.rules.size := by
    rw [lookAhead?] at h
    split at h
    · cases h
    · rename_i hr
      exact (Array.getElem?_eq_some_iff.1 hr).1
  have hget : (ofInput g input).chart.grammar.rules[rule]? = some (g.rule rule) :=
    Grammar.getElem?_rules hrule
  cases hsymbol : (g.rule rule).body[dot]? with
  | none =>
    rw [memo_eq_of_lookAhead? hget hsymbol h]
    exact hmemo
  | some symbol =>
    have hdot : dot < (g.rule rule).body.size := (Array.getElem?_eq_some_iff.1 hsymbol).1
    by_cases hpos : pos ≤ goal.stop
    · have hsymbols : (g.rule rule).body.toList.drop dot = (g.rule rule).body.toList.drop dot := rfl
      rw [lookAhead?_eq hg hrule hstop (Nat.le_of_lt hdot) hpos hsymbols, Option.some.injEq] at h
      obtain ⟨hagrees, -⟩ := fits_spec hsymbols hmemo pos
      rwa [h] at hagrees
    · -- Beyond the goal there are no ends, and nothing can be laid there.
      have hlt : goal.stop < pos := Nat.lt_of_not_le hpos
      rw [lookAhead?_of_getElem?_eq_some hget hsymbol] at h
      split at h
      · cases h
        exact hmemo
      · obtain ⟨⟨found', memo''⟩, hany, heq⟩ := Option.bind_eq_some_iff.1 h
        obtain ⟨rfl, rfl⟩ := anyNext?_of_lt hlt hany
        cases heq
        refine hmemo.insert ⟨fun hfalse => absurd hfalse Bool.false_ne_true, fun hlays => ?_⟩
        have hlength : dot < (g.rule rule).body.toList.length := by simpa using hdot
        rw [show (ofInput g input).chart.grammar.rule rule = g.rule rule from rfl,
          List.drop_eq_getElem_cons hlength] at hlays
        obtain ⟨stop, hle, hcovers, -, -⟩ := hlays
        have hle' := le_of_covers hg hcovers
        omega

/-- What a memo knows is right, whatever was asked before. -/
theorem Filled.agrees (hg : g.WellFormed) (hstop : goal.stop ≤ input.size)
    (h : (ofInput g input).Filled goal rule memo) : (ofInput g input).Agrees goal rule memo := by
  induction h with
  | empty => exact agrees_empty _ _ _
  | ask _ hasked ih => exact agrees_of_lookAhead? hg hstop ih hasked

end Memo

/-! ### Covering is spanning -/

section Input

variable {g : Grammar} {input : Array Char} {goal : Goal} {rule dot pos stop : Nat}
  {symbol : Symbol} {symbols : List Symbol}

/-- A symbol is covered, by the tables, exactly if it spans the part of the input. -/
theorem covers_iff_symbolSpans (hg : g.WellFormed) (hpos : pos ≤ input.size) :
    (ofInput g input).Covers symbol pos stop ↔
      (Chart.ofInput g input).SymbolSpans pos stop symbol := by
  cases symbol with
  | terminal t =>
    have hmatch : t.matchAt input pos = some (stop - pos) ↔ pos + (stop - pos) ≤ input.size ∧
        t.Matches (slice input pos (pos + (stop - pos))) := Terminal.matchAt_eq_some_iff hpos
    show t.matchAt input pos = some (stop - pos) ∧ pos ≤ stop ↔
      pos ≤ stop ∧ stop ≤ input.size ∧ t.Matches (slice input pos stop)
    rw [and_comm]
    refine and_congr_right fun hle => ?_
    rw [hmatch, Nat.add_sub_cancel' hle]
  | nonterm id =>
    show ((Chart.ofInput g input).setAt stop).hasCompleted id pos = true ↔
      ∃ rule ∈ g.alternativesOf id,
        ⟨rule, (g.rule rule).body.size, pos⟩ ∈ ((Chart.ofInput g input).setAt stop).items
    rw [Chart.setAt_ofInput,
      ((Recognition.intact_run g input).consistent stop).hasCompleted_iff]
    constructor
    · -- A dot in a chart is never past the end, so a complete item has it at the end.
      rintro ⟨⟨rule, dot, start⟩, hitem, hnext, hhead, rfl⟩
      have hvalid := Recognition.valid_of_mem_run hg hitem
      obtain rfl : dot = (g.rule rule).body.size :=
        Nat.le_antisymm hvalid.dot_le (Item.nextSymbol?_eq_none_iff.1 hnext)
      exact ⟨rule, hg.mem_alternativesOf_iff.2 ⟨hvalid.rule_lt, hhead⟩, hitem⟩
    · rintro ⟨rule, hrule, hitem⟩
      exact ⟨_, hitem, Item.nextSymbol?_eq_none_iff.2 (Nat.le_refl _),
        (hg.mem_alternativesOf_iff.1 hrule).2, rfl⟩

/-- What a symbol spans does not end before it begins. -/
theorem le_of_symbolSpans (hg : g.WellFormed)
    (h : (Chart.ofInput g input).SymbolSpans pos stop symbol) : pos ≤ stop := by
  cases symbol with
  | terminal t => exact h.1
  | nonterm id =>
    obtain ⟨rule, -, hitem⟩ := h
    rw [Chart.setAt_ofInput] at hitem
    have hvalid := Recognition.valid_of_mem_run hg hitem
    exact (hvalid.spans.generates hvalid.begins.le_size).1

theorem reaches_iff_mem :
    (ofInput g input).reaches goal rule dot pos = true ↔
      ⟨rule, dot, goal.start⟩ ∈ ((Chart.ofInput g input).setAt pos).items := by
  rw [reaches, show (ofInput g input).chart = Chart.ofInput g input from rfl,
    Chart.setAt_ofInput]
  exact ((Recognition.intact_run g input).consistent pos).contains_iff

/-! ### Laying is finding places -/

/-- Where the symbols from `dot + 1` on are laid, the one at `dot` can be laid before them. -/
theorem laidAt_update {places : Nat → Nat} {next : Nat}
    (hsymbol : (g.rule rule).body[dot]? = some symbol) (hle : pos ≤ next)
    (hspans : (Chart.ofInput g input).SymbolSpans pos next symbol)
    (hitem : ⟨rule, dot + 1, goal.start⟩ ∈ ((Chart.ofInput g input).setAt next).items)
    (h : (Chart.ofInput g input).LaidAt goal rule (dot + 1) next places) :
    (Chart.ofInput g input).LaidAt goal rule dot pos (Function.update places dot pos) := by
  have hdot : dot < (g.rule rule).body.size := (Array.getElem?_eq_some_iff.1 hsymbol).1
  have hold {j : Nat} (hj : dot < j) : Function.update places dot pos j = places j :=
    Function.update_of_ne (Nat.ne_of_gt hj) _ _
  have hnew : Function.update places dot pos dot = pos := Function.update_self _ _ _
  refine ⟨hnew, (hold hdot).trans h.last, fun j hj hlt => ?_, fun j hj hlt => ?_,
    fun j symbol' hj hsymbol' => ?_⟩
  all_goals
    rw [hold (Nat.lt_succ_of_le hj)]
    rcases Nat.lt_or_eq_of_le hj with hj | rfl
  · rw [hold hj]
    exact h.ascending j hj hlt
  · rwa [hnew, h.first]
  · exact h.item_mem j hj hlt
  · rwa [h.first]
  · rw [hold hj]
    exact h.spans j symbol' hj hsymbol'
  · obtain rfl : symbol = symbol' := Option.some.inj (hsymbol.symm.trans hsymbol')
    rwa [hnew, h.first]

end Input

end Extents

namespace Chart.LaidAt

variable {c : Chart} {goal : Goal} {rule dot pos : Nat} {places : Nat → Nat}

/-- Without the symbol at `dot`, the others are laid from where that one ends. -/
theorem tail (h : c.LaidAt goal rule dot pos places) :
    dot < (c.grammar.rule rule).body.size →
      c.LaidAt goal rule (dot + 1) (places (dot + 1)) places := by
  intro hdot
  exact ⟨rfl, h.last, fun j hj => h.ascending j (Nat.le_of_succ_le hj),
    fun j hj => h.item_mem j (Nat.le_of_succ_le hj),
    fun j symbol hj => h.spans j symbol (Nat.le_of_succ_le hj)⟩

/-- No place is beyond the goal, since they ascend to its end. -/
theorem pos_le_stop (h : c.LaidAt goal rule dot pos places)
    (hdot : dot ≤ (c.grammar.rule rule).body.size) : pos ≤ goal.stop := by
  obtain ⟨count, hcount⟩ := Nat.exists_eq_add_of_le hdot
  induction count generalizing dot pos with
  | zero =>
    rw [← h.first, ← h.last, hcount, Nat.add_zero]
  | succ count ih =>
    have hlt : dot < (c.grammar.rule rule).body.size := by omega
    have hstep := h.ascending dot (Nat.le_refl _) hlt
    rw [h.first] at hstep
    exact Nat.le_trans hstep (ih (h.tail hlt) hlt (by omega))

end Chart.LaidAt

namespace Extents

section Input

variable {g : Grammar} {input : Array Char} {goal : Goal} {rule dot pos : Nat}
  {symbols : List Symbol}

/-- The rest of a rule can be laid, end by end, exactly if there are places for all of its dots.
The induction is on the symbols that are left. -/
theorem lays_iff_exists_laidAt (hg : g.WellFormed) (hstop : goal.stop ≤ input.size)
    (hdot : dot ≤ (g.rule rule).body.size) (hpos : pos ≤ input.size)
    (hsymbols : (g.rule rule).body.toList.drop dot = symbols) :
    (ofInput g input).Lays goal rule symbols dot pos ↔
      ∃ places, (Chart.ofInput g input).LaidAt goal rule dot pos places := by
  have hlength := congrArg List.length hsymbols
  rw [List.length_drop, Array.length_toList] at hlength
  induction symbols generalizing dot pos with
  | nil =>
    -- The dot is at the end, so its place is both the first and the last one.
    have hend : dot = (g.rule rule).body.size := by
      rw [List.length_nil] at hlength
      omega
    have hnone {j : Nat} (hj : dot ≤ j) : ¬j < (g.rule rule).body.size := by omega
    rw [Lays]
    constructor
    · intro heq
      refine ⟨fun _ => pos, rfl, heq, fun j hj hlt => absurd hlt (hnone hj),
        fun j hj hlt => absurd hlt (hnone hj), fun j symbol hj hsymbol => ?_⟩
      exact absurd (Array.getElem?_eq_some_iff.1 hsymbol).1 (hnone hj)
    · rintro ⟨places, h⟩
      rw [← h.first, ← h.last, hend]
      rfl
  | cons symbol symbols ih =>
    rw [List.length_cons] at hlength
    have hlt : dot < (g.rule rule).body.size := by omega
    have hsymbol : (g.rule rule).body[dot]? = some symbol := by
      rw [← Array.getElem?_toList, ← List.head?_drop, hsymbols, List.head?_cons]
    have hdrop : (g.rule rule).body.toList.drop (dot + 1) = symbols := by
      rw [← List.tail_drop, hsymbols, List.tail_cons]
    constructor
    · rintro ⟨next, hnext, hcovers, hreaches, hlays⟩
      have hspans := (covers_iff_symbolSpans hg hpos).1 hcovers
      obtain ⟨places, hplaces⟩ :=
        (ih hlt (Nat.le_trans hnext hstop) hdrop (by omega)).1 hlays
      exact ⟨_, laidAt_update hsymbol (le_of_symbolSpans hg hspans) hspans
        (reaches_iff_mem.1 hreaches) hplaces⟩
    · rintro ⟨places, h⟩
      have htail := h.tail hlt
      have hnext : places (dot + 1) ≤ goal.stop := htail.pos_le_stop hlt
      have hspans := h.spans dot symbol (Nat.le_refl _) hsymbol
      rw [h.first] at hspans
      exact ⟨places (dot + 1), hnext, (covers_iff_symbolSpans hg hpos).2 hspans,
        reaches_iff_mem.2 (h.item_mem dot (Nat.le_refl _) hlt),
        (ih hlt (Nat.le_trans hnext hstop) hdrop (by omega)).2 ⟨places, htail⟩⟩

/-- The rest of a rule fits exactly if there are places for all of its dots. -/
theorem fits_iff_exists_laidAt {memo : Memo} (hg : g.WellFormed) (hstop : goal.stop ≤ input.size)
    (hdot : dot ≤ (g.rule rule).body.size) (hpos : pos ≤ input.size)
    (hmemo : (ofInput g input).Agrees goal rule memo) :
    ((ofInput g input).fits goal rule ((g.rule rule).body.toList.drop dot) dot pos memo).1 = true ↔
      ∃ places, (Chart.ofInput g input).LaidAt goal rule dot pos places := by
  have hsymbols : (g.rule rule).body.toList.drop dot = (g.rule rule).body.toList.drop dot := rfl
  obtain ⟨-, hlays⟩ := fits_spec hsymbols hmemo pos
  exact hlays.trans (lays_iff_exists_laidAt hg hstop hdot hpos hsymbols)

/-- The candidates for a symbol are, from the farthest to the nearest, the ends up to the limit of
the parts of the input that it spans. -/
theorem mem_toList_candidates_iff_symbolSpans {symbol : Symbol} {limit stop : Nat}
    (hg : g.WellFormed) (hpos : pos ≤ input.size) :
    stop ∈ ((ofInput g input).candidates symbol pos limit).toList ↔
      pos ≤ stop ∧ stop ≤ limit ∧ (Chart.ofInput g input).SymbolSpans pos stop symbol := by
  rw [mem_toList_candidates_iff, covers_iff_symbolSpans hg hpos]
  constructor
  · rintro ⟨hle, hspans⟩
    exact ⟨le_of_symbolSpans hg hspans, hle, hspans⟩
  · rintro ⟨-, hle, hspans⟩
    exact ⟨hle, hspans⟩

end Input

end Extents

/-! ### Looking ahead in the chart of an accepted input -/

/-- **Looking ahead is exact**, in the chart of every accepted input.

Whether the rest of a rule, from a dot and a position on, fits in a goal is always answered, with
every number checked and whatever the memo holds from earlier questions about this rule and goal:
the answer is yes just if there are places for all the dots from this one on.

A walker over the ends of a symbol from a position up to a limit can be asked for one end after
another: it answers with all the ends of what the symbol spans there, each of them once and the
farthest first, and then with none, however often it is asked. -/
theorem look_ahead_exact {steps : List Step} {start : String} {g : Grammar}
    (h : Grammar.build steps start = .ok g) {input : List Char} {chart : Chart}
    (hparse : g.parse input = .ok chart) :
    (∀ goal rule memo dot pos, rule < g.rules.size → goal.stop ≤ input.length →
      (Extents.ofChart chart).Filled goal rule memo →
      dot ≤ (g.rule rule).body.size → pos ≤ goal.stop →
        ∃ found memo', (Extents.ofChart chart).lookAhead? ⟨rule, goal.start, goal.stop⟩ dot pos
            memo = some (found, memo') ∧
          (found = true ↔ ∃ places, chart.LaidAt goal rule dot pos places)) ∧
    ∀ symbol pos limit, pos ≤ limit → limit ≤ input.length →
      ∃ stops : List Nat, stops.Pairwise (· > ·) ∧
        (∀ stop, stop ∈ stops ↔
          pos ≤ stop ∧ stop ≤ limit ∧ chart.SymbolSpans pos stop symbol) ∧
        ∀ count, (Candidates.upTo symbol pos limit).answer? (.ofChart chart) count =
          some stops[count]? := by
  have hg := Grammar.wellFormed_of_build h
  obtain rfl := Grammar.parse_eq_ofInput hparse
  have hsize : input.toArray.size = input.length := List.size_toArray
  constructor
  · intro goal rule memo dot pos hrule hstop hmemo hdot hpos
    rw [← hsize] at hstop
    have hanswer := Extents.lookAhead?_eq hg hrule hstop hdot hpos rfl memo
    have hexact := Extents.fits_iff_exists_laidAt hg hstop hdot (Nat.le_trans hpos hstop)
      (hmemo.agrees hg hstop)
    exact ⟨_, _, hanswer, hexact⟩
  · intro symbol pos limit hpos hlimit
    rw [← hsize] at hlimit
    exact ⟨_, Extents.pairwise_toList_candidates,
      fun stop => Extents.mem_toList_candidates_iff_symbolSpans hg (Nat.le_trans hpos hlimit),
      Candidates.answer?_eq hg (Candidates.inRange_upTo hpos hlimit)⟩

/-- Looking ahead over an input of an ambiguous and cyclic grammar, with a memo that an earlier
question has left behind. -/
theorem look_ahead_exact_doublingSteps :
    ∃ g chart, Grammar.build Grammar.doublingSteps "S" = .ok g ∧
      g.parse ['a', 'a'] = .ok chart ∧ 0 < g.rules.size ∧
      ∃ memo, (Extents.ofChart chart).Filled ⟨0, 0, 2⟩ 0 memo ∧
        (∃ found memo', (Extents.ofChart chart).lookAhead? ⟨0, 0, 2⟩ 0 0 memo =
            some (found, memo') ∧
          (found = true ↔ ∃ places, chart.LaidAt ⟨0, 0, 2⟩ 0 0 0 places)) ∧
        ∃ stops : List Nat, stops.Pairwise (· > ·) ∧
          (∀ stop, stop ∈ stops ↔ 0 ≤ stop ∧ stop ≤ 2 ∧ chart.SymbolSpans 0 stop (.nonterm 0)) ∧
          ∀ count, (Candidates.upTo (.nonterm 0) 0 2).answer? (.ofChart chart) count =
            some stops[count]? := by
  obtain ⟨g, hbuild, hstart, -, hrules⟩ := Grammar.exists_build_doublingSteps
  have hparse := (Grammar.parse_eq_ok_iff (Grammar.wellFormed_of_build hbuild)).2
    (Grammar.generates_doubling hstart hrules)
  obtain ⟨hfits, hcandidates⟩ := look_ahead_exact hbuild hparse
  have hsize : 0 < g.rules.size := by
    rw [hrules]
    decide
  obtain ⟨found, memo, hasked, -⟩ := hfits ⟨0, 0, 2⟩ 0 ∅ 0 1 hsize (by decide) .empty
    (Nat.zero_le _) (by decide)
  have hfilled := Extents.Filled.ask .empty hasked
  exact ⟨g, _, hbuild, hparse, hsize, memo, hfilled,
    hfits ⟨0, 0, 2⟩ 0 memo 0 0 hsize (by decide) hfilled (Nat.zero_le _) (by decide),
    hcandidates (.nonterm 0) 0 2 (by decide) (by decide)⟩

end Earley
