/-
  Where a rejected input stops, and what would have fitted there.

  A position is read if the start symbol derives a sentential form that begins with terminals which
  match the input up to there (`Grammar.Reads`). These are the positions whose sets have items
  (`exists_valid_iff_exists_reads`), and the terminals behind the dots of a set are those that such
  a sentential form may have next (`exists_valid_terminal_iff_reads`).

  Expanding an item moves the furthest position only where it adds an item further on
  (`furthest_expand_cases`), so the furthest position is the last one whose set has items, and a
  rejection reports the last position that is read (`rejection_exact`).
-/
import Earley.Proofs.Chart.Exact
import Earley.Proofs.Text.Sorted
import Mathlib.Order.Bounds.Defs

namespace Earley

/-! ### Positions that are read -/

namespace Grammar

variable {g : Grammar} {input : Array Char} {k : Nat}

/-- Tells that the input may be read up to `k` with `rest` to follow: the start symbol derives a
sentential form in which `rest` stands behind terminals that match the input up to `k` one after
another. -/
def Reads (g : Grammar) (input : Array Char) (k : Nat) (rest : List Symbol) : Prop :=
  k ≤ input.size ∧ ∃ ts, g.Derives [.nonterm g.start] (ts.map .terminal ++ rest) ∧
    Terminal.MatchInTurn ts (slice input 0 k)

/-- What stands behind the dot of a valid item may follow. -/
theorem Reads.of_valid {item : Item} (h : item.Valid g input k) :
    ∃ after, g.Reads input k ((g.rule item.rule).body.toList.drop item.dot ++ after) := by
  obtain ⟨hstart, ts, after, hderives, hmatch⟩ := h.begins.exists_derives
  obtain ⟨hle, hk, hgenerates⟩ := h.spans.generates hstart
  obtain ⟨ts', hderives', hmatch'⟩ := hgenerates.yields
  refine ⟨after, hk, ts ++ ts', hderives.trans ?_, ?_⟩
  · -- The head is replaced by its body, of which the part before the dot is derived.
    have hrule := (derives_of_rule (rule_mem h.rule_lt)).surround (ts.map .terminal) after
    have hbefore := hderives'.surround (ts.map .terminal)
      ((g.rule item.rule).body.toList.drop item.dot ++ after)
    rw [← List.take_append_drop item.dot (g.rule item.rule).body.toList] at hrule
    simp only [List.append_assoc, List.cons_append, List.nil_append, List.map_append]
      at hrule hbefore ⊢
    exact hrule.trans hbefore
  · rw [← slice_append_slice (Nat.zero_le _) hle]
    exact hmatch.append hmatch'

/-- Behind what has been read, a terminal of a sentential form stands behind the dot of a valid
item. The induction is on the derivation, as for `begins_of_derives`. -/
theorem exists_valid_of_derives {t : Terminal} {α before after : List Symbol}
    (h : g.Derives [.nonterm g.start] α) (hα : α = before ++ .terminal t :: after)
    (hspans : g.Spans input before 0 k) :
    ∃ item : Item, item.Valid g input k ∧ item.nextSymbol? g = some (.terminal t) := by
  induction h generalizing before k after with
  | refl => rcases before with _ | ⟨symbol, _ | _⟩ <;> cases hα
  | tail hprefix hstep ih =>
    obtain ⟨rule, hrule, u, v, rfl, rfl⟩ := hstep
    obtain ⟨index, hindex, rfl⟩ := mem_rules_iff.1 hrule
    rw [List.append_assoc] at hα
    rcases append_eq_append_cons hα with ⟨rest, rfl, -⟩ | ⟨front, rfl, hfront⟩
    · -- The terminal stands before the rewritten symbol, so it was there already.
      exact @ih k before (rest ++ .nonterm (g.rule index).head :: v) (by simp) hspans
    · obtain ⟨i, hu, hspans⟩ := exists_of_spans_append hspans
      rcases append_eq_append_cons hfront with ⟨rest, hbody, -⟩ | ⟨front, rfl, rfl⟩
      · -- The body of the rule has brought it in, and the head began where `u` ends.
        refine ⟨⟨index, front.length, i⟩, ⟨hindex, ?_, begins_of_derives hprefix rfl hu, ?_⟩, ?_⟩
        · rw [← Array.length_toList, hbody, List.length_append]
          exact Nat.le_add_right _ _
        · simpa only [hbody, List.take_left] using hspans
        · apply Item.nextSymbol?_eq_some_of_drop
          rw [hbody, List.drop_left]
      · -- It stands behind the body, and the head spans what the body does.
        obtain ⟨i', hbody, hspans⟩ := exists_of_spans_append hspans
        exact @ih k (u ++ .nonterm (g.rule index).head :: front) after (by simp)
          (hu.append (.nonterm hindex hbody hspans))

theorem spans_of_matchInTurn {ts : List Terminal} (hk : k ≤ input.size)
    (h : Terminal.MatchInTurn ts (slice input 0 k)) :
    g.Spans input (ts.map .terminal) 0 k :=
  (generates_map_terminal_iff.2 h).spans (Nat.zero_le k) hk rfl

/-- The terminals behind the dots of the valid items are those that may follow. -/
theorem exists_valid_terminal_iff_reads {t : Terminal} :
    (∃ item : Item, item.Valid g input k ∧ item.nextSymbol? g = some (.terminal t)) ↔
      ∃ rest, g.Reads input k (.terminal t :: rest) := by
  constructor
  · rintro ⟨item, hvalid, hnext⟩
    obtain ⟨after, hreads⟩ := Reads.of_valid hvalid
    rw [Item.nextSymbol?, ← Array.getElem?_toList] at hnext
    obtain ⟨hlt, hget⟩ := List.getElem?_eq_some_iff.1 hnext
    rw [List.drop_eq_getElem_cons hlt, hget] at hreads
    exact ⟨_, hreads⟩
  · rintro ⟨rest, hk, ts, hderives, hmatch⟩
    exact exists_valid_of_derives hderives rfl (spans_of_matchInTurn hk hmatch)

/-- There are valid items exactly at the positions that are read. -/
theorem exists_valid_iff_exists_reads (hg : g.WellFormed) :
    (∃ item : Item, item.Valid g input k) ↔ ∃ rest, g.Reads input k rest := by
  constructor
  · rintro ⟨item, hvalid⟩
    obtain ⟨after, hreads⟩ := Reads.of_valid hvalid
    exact ⟨_, hreads⟩
  · rintro ⟨rest, hk, ts, hderives, hmatch⟩
    have hspans := spans_of_matchInTurn (g := g) hk hmatch
    rcases List.eq_nil_or_concat ts with rfl | ⟨ts, t, rfl⟩
    · -- Nothing is read, and the rules of the start symbol begin here.
      obtain rfl : 0 = k := spans_nil_iff.1 hspans
      have hused : g.start ∈ Builder.used g.start g.rules := List.mem_cons_self
      obtain ⟨rule, hrule⟩ := List.exists_mem_of_ne_nil _ (hg.productive g.start hused)
      exact ⟨_, Item.valid_predict hg hrule .start⟩
    · -- The last terminal stood behind the dot of a valid item, and moves it to here.
      rw [List.concat_eq_append, List.map_append, List.map_singleton] at hspans hderives
      rw [List.append_assoc, List.singleton_append] at hderives
      obtain ⟨j, hts, ht⟩ := exists_of_spans_append hspans
      obtain ⟨item, hvalid, hnext⟩ := exists_valid_of_derives hderives rfl hts
      exact ⟨_, hvalid.advance hnext ht⟩

end Grammar

/-! ### The furthest position -/

namespace Recognition

variable {g : Grammar} {input : Array Char} {r : Recognition} {pos k : Nat} {item : Item}

theorem furthest_insertAll (g : Grammar) (pos : Nat) (r : Recognition) (items : List Item) :
    (r.insertAll g pos items).furthest = r.furthest := by
  induction items generalizing r with
  | nil => rfl
  | cons item items ih => exact ih (r.insert g pos item)

/-- An expansion leaves the furthest position and adds items here only, or it adds one item, and
the furthest position takes that into account. -/
theorem furthest_expand_cases (g : Grammar) (input : Array Char) (pos : Nat) (r : Recognition)
    (item : Item) :
    (r.expand g input pos item).furthest = r.furthest ∧
        (∀ p ∈ additions g input pos r item, p.1 = pos) ∨
      ∃ p, additions g input pos r item = [p] ∧
        (r.expand g input pos item).furthest = max r.furthest p.1 := by
  rw [expand, additions]
  cases item.nextSymbol? g with
  | none =>
    refine Or.inl ⟨furthest_insertAll g pos r _, fun p hp => ?_⟩
    obtain ⟨_, -, rfl⟩ := List.mem_map.1 hp
    rfl
  | some symbol =>
    cases symbol with
    | nonterm id =>
      -- Predictions are made at this position, and so is the step over an empty text.
      refine Or.inl ⟨?_, fun p hp => ?_⟩
      · dsimp only
        rw [predict]
        split <;> exact furthest_insertAll g pos r _
      · rcases List.mem_append.1 hp with hp | hp
        · obtain ⟨_, -, rfl⟩ := List.mem_map.1 hp
          rfl
        · split at hp
          · rw [List.mem_singleton.1 hp]
          · cases hp
    | terminal t =>
      dsimp only
      rw [scan]
      cases t.matchAt input pos with
      | none => exact Or.inl ⟨rfl, fun p hp => absurd hp List.not_mem_nil⟩
      | some length => exact Or.inr ⟨_, rfl, rfl⟩

/-- The furthest position is the last one whose set has items. -/
structure Reaches (r : Recognition) : Prop where
  exists_mem : ∃ item, item ∈ (r.setAt r.furthest).items
  le_furthest : ∀ k, ∀ item ∈ (r.setAt k).items, k ≤ r.furthest

theorem reaches_start (hg : g.WellFormed) (length : Nat) : (start g length).Reaches := by
  have hzero : (start g length).furthest = 0 := furthest_insertAll g 0 _ _
  have hused : g.start ∈ Builder.used g.start g.rules := List.mem_cons_self
  obtain ⟨rule, hrule⟩ := List.exists_mem_of_ne_nil _ (hg.productive g.start hused)
  refine ⟨⟨.predict rule 0, mem_setAt_start_iff.2 ⟨hzero, List.mem_map_of_mem hrule⟩⟩, ?_⟩
  intro k item hitem
  rw [(mem_setAt_start_iff.1 hitem).1]
  exact Nat.zero_le _

theorem Reaches.expand (h : r.Reaches) (hintact : r.Intact g input.size) (hpos : pos ≤ input.size)
    (hitem : item ∈ (r.setAt pos).items) : (r.expand g input pos item).Reaches := by
  obtain ⟨⟨last, hlast⟩, hle⟩ := h
  have hmem {k : Nat} {item' : Item} :
      item' ∈ ((r.expand g input pos item).setAt k).items ↔
        (k, item') ∈ additions g input pos r item ∨ item' ∈ (r.setAt k).items :=
    mem_setAt_expand_iff hintact hpos
  rcases furthest_expand_cases g input pos r item with ⟨hsame, hhere⟩ | ⟨p, hadd, hmax⟩
  · refine ⟨⟨last, hmem.2 (Or.inr (hsame.symm ▸ hlast))⟩, fun k item' hitem' => ?_⟩
    rw [hsame]
    rcases hmem.1 hitem' with hnew | hold
    · have hk : k = pos := hhere _ hnew
      exact hk ▸ hle pos item hitem
    · exact hle k item' hold
  · constructor
    · rcases Nat.le_total p.1 r.furthest with hbehind | hahead
      · rw [hmax, Nat.max_eq_left hbehind]
        exact ⟨last, hmem.2 (Or.inr hlast)⟩
      · rw [hmax, Nat.max_eq_right hahead]
        exact ⟨p.2, hmem.2 (Or.inl (hadd ▸ List.mem_singleton_self p))⟩
    · intro k item' hitem'
      rw [hmax]
      rcases hmem.1 hitem' with hnew | hold
      · rw [hadd, List.mem_singleton] at hnew
        subst hnew
        exact Nat.le_max_right _ _
      · exact Nat.le_trans (hle k item' hold) (Nat.le_max_left _ _)

theorem reaches_run (hg : g.WellFormed) (input : Array Char) : (run g input).Reaches := by
  have hrun : (run g input).Intact g input.size ∧ (run g input).Reaches := by
    refine run_induction (P := fun r => r.Intact g input.size ∧ r.Reaches)
      ⟨intact_start g input.size, reaches_start hg input.size⟩ ?_
    rintro r pos item hpos ⟨hintact, h⟩ hitem
    exact ⟨hintact.expand input pos item, h.expand hintact hpos hitem⟩
  exact hrun.2

/-- The furthest position is the last one that is read. -/
theorem isGreatest_furthest (hg : g.WellFormed) (input : Array Char) :
    IsGreatest {k | ∃ rest, g.Reads input k rest} (run g input).furthest := by
  obtain ⟨⟨last, hlast⟩, hle⟩ := reaches_run hg input
  constructor
  · exact (Grammar.exists_valid_iff_exists_reads hg).1 ⟨last, valid_of_mem_run hg hlast⟩
  · intro k hk
    obtain ⟨item, hvalid⟩ := (Grammar.exists_valid_iff_exists_reads hg).2 hk
    exact hle k item ((mem_run_iff_valid hg).2 hvalid)

end Recognition

/-! ### Rejections -/

namespace Chart

variable {g : Grammar} {input : Array Char}

/-- What is expected are the terminals that may follow at the furthest position. -/
theorem mem_expected_iff (hg : g.WellFormed) {s : String} :
    s ∈ (ofInput g input).expected ↔
      ∃ t rest, g.Reads input (ofInput g input).furthest (.terminal t :: rest) ∧
        t.display = s := by
  rw [expected, mem_sortDistinct_iff, List.mem_filterMap]
  constructor
  · rintro ⟨item, hitem, hdisplay⟩
    rw [Array.mem_toList_iff, setAt_ofInput] at hitem
    split at hdisplay
    · next t hnext =>
      obtain ⟨rest, hreads⟩ := Grammar.exists_valid_terminal_iff_reads.1
        ⟨item, Recognition.valid_of_mem_run hg hitem, hnext⟩
      exact ⟨t, rest, hreads, Option.some.inj hdisplay⟩
    · cases hdisplay
  · rintro ⟨t, rest, hreads, rfl⟩
    obtain ⟨item, hvalid, hnext⟩ := Grammar.exists_valid_terminal_iff_reads.2 ⟨rest, hreads⟩
    refine ⟨item, Array.mem_toList_iff.2 ((Recognition.mem_run_iff_valid hg).2 hvalid), ?_⟩
    rw [show (ofInput g input).grammar = g from rfl, hnext]

/-- No terminal that may follow at the furthest position matches there. -/
theorem matchAt_furthest_eq_none (hg : g.WellFormed) {t : Terminal} {rest : List Symbol}
    (hreads : g.Reads input (ofInput g input).furthest (.terminal t :: rest)) :
    t.matchAt input (ofInput g input).furthest = none := by
  obtain ⟨item, hvalid, hnext⟩ := Grammar.exists_valid_terminal_iff_reads.2 ⟨rest, hreads⟩
  cases hmatch : t.matchAt input (ofInput g input).furthest with
  | none => rfl
  | some length =>
    -- What the match takes in would be read as well, so it can only be the empty text.
    have hmoved := hvalid.advance hnext (.terminal hmatch .nil)
    have hle := (Recognition.isGreatest_furthest hg input).2
      ((Grammar.exists_valid_iff_exists_reads hg).1 ⟨_, hmoved⟩)
    obtain rfl : length = 0 := Nat.le_zero.1 (Nat.le_of_add_le_add_left hle)
    have hempty := ((Terminal.matchAt_eq_some_iff hreads.1).1 hmatch).2
    rw [Nat.add_zero, slice_self] at hempty
    have hbody : Symbol.terminal t ∈ (g.rule item.rule).body := Array.mem_of_getElem? hnext
    have hvacuous := hg.not_vacuous _ (Grammar.rule_mem hvalid.rule_lt) t hbody
    rw [Terminal.isVacuous_of_matches_nil hempty] at hvacuous
    cases hvacuous

end Chart

theorem Grammar.parse_eq_error {g : Grammar} {input : List Char} {e : ParseError}
    (h : g.parse input = .error e) : e = (Chart.ofInput g input.toArray).rejection := by
  rw [parse] at h
  split at h
  · cases h
  · exact (Except.error.inj h).symm

/-- **A rejection says where and why the input stops.** The position is the largest one up to which
the input is matched by the leading terminals of a sentential form. What is expected, in strictly
ascending order, are the names of exactly those terminals that such a sentential form may have
next; none of them matches there. The character found is the one at the position, and there is
none just at the end of the input. -/
theorem rejection_exact {steps : List Step} {start : String} {g : Grammar}
    (h : Grammar.build steps start = .ok g) {input : List Char} {position : Nat}
    {location : Location} {found : Option Char} {expected : List String}
    (hparse : g.parse input = .error (.noDerivation position location found expected)) :
    IsGreatest {k | ∃ rest, g.Reads input.toArray k rest} position ∧
      expected.Pairwise (· < ·) ∧
      (∀ s, s ∈ expected ↔
        ∃ t rest, g.Reads input.toArray position (.terminal t :: rest) ∧ t.display = s) ∧
      (∀ t rest, g.Reads input.toArray position (.terminal t :: rest) →
        t.matchAt input.toArray position = none) ∧
      found = input[position]? ∧ (found = none ↔ position = input.length) ∧
      location = Location.locate input position := by
  have hg := Grammar.wellFormed_of_build h
  have hrejection := Grammar.parse_eq_error hparse
  rw [Chart.rejection, ParseError.noDerivation.injEq] at hrejection
  obtain ⟨rfl, rfl, rfl, rfl⟩ := hrejection
  have hgreatest := Recognition.isGreatest_furthest hg input.toArray
  obtain ⟨_, hle, -⟩ := hgreatest.1
  refine ⟨hgreatest, pairwise_sortDistinct _, fun s => Chart.mem_expected_iff hg,
    fun t rest => Chart.matchAt_furthest_eq_none hg, List.getElem?_toArray, ?_, rfl⟩
  rw [show (Chart.ofInput g input.toArray).input = input.toArray from rfl,
    Array.getElem?_eq_none_iff]
  exact ⟨fun hend => Nat.le_antisymm hle hend, fun hend => Nat.le_of_eq hend.symm⟩

/-- An input that is not derived is rejected. -/
theorem Grammar.parse_eq_rejection {g : Grammar} (hg : g.WellFormed) {input : List Char}
    (h : ¬g.Generates [.nonterm g.start] input) :
    g.parse input = .error (Chart.ofInput g input.toArray).rejection := by
  have hnone : (Chart.ofInput g input.toArray).acceptingRule? = none := by
    by_contra hsome
    exact h ((Chart.acceptingRule?_ne_none_iff hg input.toArray).1 hsome)
  rw [parse, hnone]

/-- The ambiguous and cyclic grammar of `doublingSteps` derives only texts of one letter. -/
theorem Grammar.eq_of_mem_doubling {g : Grammar} {α : List Symbol} {w : List Char}
    (hrules : g.rules =
      #[⟨0, #[.nonterm 0, .nonterm 0]⟩, ⟨0, #[.terminal (.literal ['a'])]⟩, ⟨0, #[]⟩])
    (h : g.Generates α w) (hα : ∀ t, Symbol.terminal t ∈ α → t = .literal ['a']) :
    ∀ c ∈ w, c = 'a' := by
  induction h with
  | nil => simp
  | terminal ht _ ih =>
    obtain rfl := hα _ List.mem_cons_self
    obtain rfl : _ = ['a'] := ht
    simpa using ih fun t hmem => hα t (List.mem_cons_of_mem _ hmem)
  | @nonterm rule _ _ _ hrule _ _ ihbody ihrest =>
    have hbody : ∀ t, Symbol.terminal t ∈ rule.body.toList → t = .literal ['a'] := by
      rw [hrules] at hrule
      simp only [List.mem_toArray, List.mem_cons, List.not_mem_nil, or_false] at hrule
      rcases hrule with rfl | rfl | rfl <;> simp
    exact List.forall_mem_append.2
      ⟨ihbody hbody, ihrest fun t hmem => hα t (List.mem_cons_of_mem _ hmem)⟩

theorem rejection_exact_doublingSteps :
    ∃ g position location found expected, Grammar.build Grammar.doublingSteps "S" = .ok g ∧
      g.parse ['a', 'b'] = .error (.noDerivation position location found expected) ∧
      IsGreatest {k | ∃ rest, g.Reads #['a', 'b'] k rest} position ∧
      expected.Pairwise (· < ·) ∧
      (∀ s, s ∈ expected ↔
        ∃ t rest, g.Reads #['a', 'b'] position (.terminal t :: rest) ∧ t.display = s) ∧
      (∀ t rest, g.Reads #['a', 'b'] position (.terminal t :: rest) →
        t.matchAt #['a', 'b'] position = none) ∧
      found = ['a', 'b'][position]? ∧ (found = none ↔ position = 2) ∧
      location = Location.locate ['a', 'b'] position := by
  obtain ⟨g, hbuild, -, -, hrules⟩ := Grammar.exists_build_doublingSteps
  have hnot : ¬g.Generates [.nonterm g.start] ['a', 'b'] := fun h =>
    absurd (Grammar.eq_of_mem_doubling hrules h (by simp) 'b' (by simp)) (by decide)
  have hparse := Grammar.parse_eq_rejection (Grammar.wellFormed_of_build hbuild) hnot
  exact ⟨g, _, _, _, _, hbuild, hparse, rejection_exact hbuild hparse⟩

end Earley
