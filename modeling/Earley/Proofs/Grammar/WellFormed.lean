/-
  `WellFormed` — what holds of every grammar that is built from steps.

  The tables of a grammar agree with each other: names and numbers of non-terminals determine one
  another, rules mention only non-terminals that exist and terminals that can match something,
  and the rules of each non-terminal are listed in order. `wellFormed_of_build` shows it for
  every result of `Grammar.build`; all that is proved about recognition starts from there.
-/
import Earley.Proofs.Grammar.Builder
import Earley.Proofs.Grammar.Derivation
import Mathlib.Data.List.Basic

namespace Earley

namespace Grammar

/-- The tables of a grammar agree with each other. -/
structure WellFormed (g : Grammar) : Prop where
  start_lt : g.start < g.nonterms.size
  /-- Names and numbers of non-terminals determine one another. -/
  nonterm?_eq_some_iff : ∀ (name : String) (id : Nat),
    g.nonterm? name = some id ↔ g.nonterms[id]? = some name
  head_lt : ∀ rule ∈ g.rules, rule.head < g.nonterms.size
  nonterm_lt : ∀ rule ∈ g.rules, ∀ id, Symbol.nonterm id ∈ rule.body → id < g.nonterms.size
  not_vacuous : ∀ rule ∈ g.rules, ∀ t, Symbol.terminal t ∈ rule.body → t.isVacuous = false
  /-- No rule is there twice. -/
  nodup : g.rules.toList.Nodup
  /-- The rules of a non-terminal are listed in the order of their declaration. -/
  alternativesOf_eq : ∀ id, g.alternativesOf id =
    (List.range g.rules.size).filter fun index => (g.rule index).head == id
  /-- Every non-terminal that is used has a rule. -/
  productive : ∀ id ∈ Builder.used g.start g.rules, g.alternativesOf id ≠ []
  nullable_eq : g.nullable = Nullable.table g.nonterms.size g.rules

end Grammar

/-! ### The rules of each non-terminal -/

namespace Builder

theorem getD_modify_eq_ite {groups : Array (List Nat)} {i id : Nat} {f : List Nat → List Nat}
    (hi : i < groups.size) :
    (groups.modify i f).getD id [] =
      if i = id then f (groups.getD id []) else groups.getD id [] := by
  rw [Array.getD_eq_getD_getElem?, Array.getD_eq_getD_getElem?, Array.getElem?_modify]
  split
  · rename_i heq
    subst heq
    rw [Array.getElem?_eq_getElem hi]
    rfl
  · rfl

/-- Collecting numbers under the heads of their rules puts each of them in front of its group. -/
theorem getD_foldl_modify {heads : Nat → Nat} {indexes : List Nat} {groups : Array (List Nat)}
    (hheads : ∀ index ∈ indexes, heads index < groups.size) (id : Nat) :
    (indexes.foldl (fun groups index => groups.modify (heads index) (index :: ·)) groups).getD
        id [] =
      (indexes.filter fun index => heads index == id).reverse ++ groups.getD id [] := by
  induction indexes generalizing groups with
  | nil => rfl
  | cons index indexes ih =>
    have hrest : ∀ i ∈ indexes, heads i < (groups.modify (heads index) (index :: ·)).size := by
      intro i hi
      rw [Array.size_modify]
      exact hheads i (List.mem_cons_of_mem _ hi)
    rw [List.foldl_cons, ih hrest, getD_modify_eq_ite (hheads index List.mem_cons_self),
      List.filter_cons]
    by_cases h : heads index = id
    · simp [h]
    · simp [h]

theorem getD_groupByHead {count : Nat} {rules : Array Rule}
    (h : ∀ index < rules.size, (rules.getD index default).head < count) (id : Nat) :
    (groupByHead count rules).getD id [] =
      (List.range rules.size).filter fun index => (rules.getD index default).head == id := by
  have hheads : ∀ index ∈ List.range rules.size,
      (rules.getD index default).head < (Array.replicate count ([] : List Nat)).size := by
    intro index hindex
    rw [Array.size_replicate]
    exact h index (List.mem_range.1 hindex)
  have hfold := @getD_foldl_modify (fun index => (rules.getD index default).head)
    (List.range rules.size) (Array.replicate count []) hheads id
  have hempty : (Array.replicate count ([] : List Nat)).getD id [] = [] := by
    rw [Array.getD_eq_getD_getElem?, Array.getElem?_replicate]
    split <;> rfl
  rw [hempty, List.append_nil] at hfold
  rw [groupByHead, Array.getD_eq_getD_getElem?, Array.getElem?_map]
  rw [Array.getD_eq_getD_getElem?] at hfold
  -- The groups are built in reverse and turned around at the end, each by itself.
  generalize (List.range rules.size).foldl _ _ = groups at hfold ⊢
  cases hid : groups[id]? with
  | none =>
    rw [hid, Option.getD_none] at hfold
    simpa using hfold
  | some group =>
    rw [hid, Option.getD_some] at hfold
    simp [hfold]

/-! ### The numbers of names -/

theorem Consistent.nonterms_injective {b : Builder} (h : b.Consistent) {i j : Nat}
    {name : String} (hi : b.nonterms[i]? = some name) (hj : b.nonterms[j]? = some name) :
    i = j := by
  rw [← h.nonterm_iff] at hi hj
  rw [hi] at hj
  cases hj
  rfl

theorem getElem?_ofList_zip_range {b : Builder} (h : b.Consistent) (name : String) (id : Nat) :
    (Std.HashMap.ofList (b.nonterms.toList.zip (List.range b.nonterms.size)))[name]? = some id ↔
      b.nonterms[id]? = some name := by
  have hmem (name : String) (id : Nat) :
      (name, id) ∈ b.nonterms.toList.zip (List.range b.nonterms.size) ↔
        b.nonterms[id]? = some name := by
    rw [List.mem_iff_getElem?]
    constructor
    · rintro ⟨i, hi⟩
      obtain ⟨hname, hid⟩ := List.getElem?_zip_eq_some.1 hi
      obtain ⟨_, rfl⟩ := List.getElem?_eq_some_iff.1 hid
      rw [List.getElem_range, ← Array.getElem?_toList]
      exact hname
    · intro hname
      have hlt := (Array.getElem?_eq_some_iff.1 hname).1
      refine ⟨id, List.getElem?_zip_eq_some.2 ⟨by rwa [Array.getElem?_toList], ?_⟩⟩
      exact List.getElem?_range hlt
  -- The table keeps the last of equal keys, so the names must be shown to be distinct.
  have hdistinct : (b.nonterms.toList.zip (List.range b.nonterms.size)).Pairwise
      fun p q => (p.1 == q.1) = false := by
    rw [List.pairwise_iff_getElem]
    intro i j hi hj hij
    rw [beq_eq_false_iff_ne]
    intro heq
    rw [List.length_zip, List.length_range, Array.length_toList, Nat.min_self] at hi hj
    rw [List.getElem_zip, List.getElem_zip] at heq
    have hi' : b.nonterms[i]? = some b.nonterms[i] := Array.getElem?_eq_getElem hi
    have hj' : b.nonterms[j]? = some b.nonterms[i] := by
      rw [Array.getElem?_eq_getElem hj]
      exact congrArg some heq.symm
    exact absurd (h.nonterms_injective hi' hj') (Nat.ne_of_lt hij)
  constructor
  · intro hsome
    rw [← hmem]
    by_contra hnot
    have hnone : ((b.nonterms.toList.zip (List.range b.nonterms.size)).map Prod.fst).contains
        name = false := by
      rw [← Bool.not_eq_true, List.contains_iff_mem, List.mem_map]
      rintro ⟨⟨_, id'⟩, hmem', rfl⟩
      rw [Std.HashMap.getElem?_ofList_of_mem BEq.rfl hdistinct hmem'] at hsome
      cases hsome
      exact hnot hmem'
    rw [Std.HashMap.getElem?_ofList_of_contains_eq_false hnone] at hsome
    cases hsome
  · intro hname
    exact Std.HashMap.getElem?_ofList_of_mem BEq.rfl hdistinct ((hmem name id).2 hname)

/-! ### Finished grammars -/

theorem head_lt_of_mem_rules {b : Builder} (h : b.Consistent) {rule : Rule}
    (hrule : rule ∈ b.rules) : rule.head < b.nonterms.size := by
  obtain ⟨name, hname⟩ := h.head rule hrule
  exact (Array.getElem?_eq_some_iff.1 ((h.nonterm_iff name rule.head).1 hname)).1

theorem head_getD_lt {b : Builder} (h : b.Consistent) {index : Nat}
    (hindex : index < b.rules.size) :
    (b.rules.getD index default).head < b.nonterms.size := by
  rw [Array.getD_eq_getD_getElem?, Array.getElem?_eq_getElem hindex, Option.getD_some]
  exact head_lt_of_mem_rules h (Array.getElem_mem hindex)

/-- What `finish` puts together, and when. -/
theorem finish_eq_ok_iff {b : Builder} {start : String} {g : Grammar} :
    b.finish start = .ok g ↔
      b.error = none ∧ b.symbols[start]? = some (.nonterm g.start) ∧
        (∀ id ∈ used g.start b.rules, (groupByHead b.nonterms.size b.rules).getD id [] ≠ []) ∧
        g.nonterms = b.nonterms ∧ g.rules = b.rules ∧
        g.ids = Std.HashMap.ofList (b.nonterms.toList.zip (List.range b.nonterms.size)) ∧
        g.alternatives = groupByHead b.nonterms.size b.rules ∧
        g.nullable = Nullable.table b.nonterms.size b.rules := by
  rw [← resolveNonterm_eq_ok_iff, finish]
  obtain ⟨gstart, gnonterms, gids, grules, galternatives, gnullable⟩ := g
  cases b.error with
  | some e => simp
  | none =>
    cases b.resolveNonterm start with
    | error e => simp
    | ok id =>
      simp only [Except.ok.injEq, true_and]
      split
      · -- A non-terminal without rules was found, and there is no grammar.
        rename_i id' hfind
        have hmem := List.mem_of_find?_eq_some hfind
        have hempty := List.find?_some hfind
        rw [List.isEmpty_iff] at hempty
        simp only [reduceCtorEq, false_iff]
        rintro ⟨rfl, hused, -⟩
        exact hused id' hmem hempty
      · rename_i hfind
        rw [List.find?_eq_none] at hfind
        simp only [Except.ok.injEq, Grammar.mk.injEq]
        constructor
        · rintro ⟨rfl, rfl, rfl, rfl, rfl, rfl⟩
          refine ⟨rfl, fun id' hmem hempty => hfind id' hmem ?_, rfl, rfl, rfl, rfl, rfl⟩
          rw [hempty]
          rfl
        · rintro ⟨rfl, -, rfl, rfl, rfl, rfl, rfl⟩
          exact ⟨rfl, rfl, rfl, rfl, rfl, rfl⟩

theorem wellFormed_of_finish {b : Builder} (h : b.Consistent) {start : String} {g : Grammar}
    (hfinish : b.finish start = .ok g) : g.WellFormed := by
  obtain ⟨-, hstart, hused, hnonterms, hrules, hids, halternatives, hnullable⟩ :=
    finish_eq_ok_iff.1 hfinish
  have hnonterm {rule : Rule} (hrule : rule ∈ b.rules) {id : Nat}
      (hid : Symbol.nonterm id ∈ rule.body) : id < b.nonterms.size := by
    obtain ⟨name, hname⟩ := h.body rule hrule _ hid
    exact (Array.getElem?_eq_some_iff.1 ((h.nonterm_iff name id).1 hname)).1
  refine ⟨?_, ?_, ?_, ?_, ?_, ?_, ?_, ?_, ?_⟩
  · rw [hnonterms]
    exact (Array.getElem?_eq_some_iff.1 ((h.nonterm_iff start g.start).1 hstart)).1
  · intro name id
    rw [Grammar.nonterm?, hids, hnonterms]
    exact getElem?_ofList_zip_range h name id
  · rw [hrules, hnonterms]
    exact fun rule hrule => head_lt_of_mem_rules h hrule
  · rw [hrules, hnonterms]
    exact fun rule hrule id hid => hnonterm hrule hid
  · rw [hrules]
    intro rule hrule t ht
    obtain ⟨name, hname⟩ := h.body rule hrule _ ht
    exact h.terminal name t hname
  · rw [hrules]
    exact h.nodup
  · intro id
    simp only [Grammar.alternativesOf, halternatives, hrules, Grammar.rule]
    exact getD_groupByHead (fun index hindex => head_getD_lt h hindex) id
  · rw [hrules]
    intro id hid
    rw [Grammar.alternativesOf, halternatives]
    exact hused id hid
  · rw [hnullable, hnonterms, hrules]

end Builder

namespace Grammar

theorem wellFormed_of_build {steps : List Step} {start : String} {g : Grammar}
    (h : build steps start = .ok g) : g.WellFormed :=
  Builder.wellFormed_of_finish (Builder.consistent_run steps) h

/-- Where the tables behind the steps are known, so is the grammar, as long as every non-terminal
that is used has a rule. -/
theorem exists_build_of_run {steps : List Step} {start : String} {id : Nat}
    {nonterms : Array String} {rules : Array Rule}
    (hrun : (Builder.run steps).error = none ∧
      (Builder.run steps).symbols[start]? = some (.nonterm id) ∧
      (Builder.run steps).nonterms = nonterms ∧ (Builder.run steps).rules = rules)
    (hused : ∀ id' ∈ Builder.used id rules,
      (Builder.groupByHead nonterms.size rules).getD id' [] ≠ []) :
    ∃ g, build steps start = .ok g ∧ g.start = id ∧ g.nonterms = nonterms ∧ g.rules = rules := by
  obtain ⟨herror, hstart, rfl, rfl⟩ := hrun
  exact ⟨⟨id, _, _, _, _, _⟩, Builder.finish_eq_ok_iff.2
    ⟨herror, hstart, hused, rfl, rfl, rfl, rfl, rfl⟩, rfl, rfl, rfl⟩

/-- The steps for a small grammar in which much goes wrong easily: `S -> S S`, `S -> "a"` and
`S ->` make it ambiguous, cyclic and left-recursive, and it derives the empty text. -/
def doublingSteps : List Step :=
  [.nonterm false "S", .terminal false "a" (.literal ['a']), .rule false "S" ["S", "S"],
    .rule false "S" ["a"], .rule false "S" []]

theorem run_doublingSteps :
    (Builder.run doublingSteps).error = none ∧
      (Builder.run doublingSteps).symbols["S"]? = some (.nonterm 0) ∧
      (Builder.run doublingSteps).nonterms = #["S"] ∧
      (Builder.run doublingSteps).rules =
        #[⟨0, #[.nonterm 0, .nonterm 0]⟩, ⟨0, #[.terminal (.literal ['a'])]⟩, ⟨0, #[]⟩] := by
  cbv

theorem exists_build_doublingSteps :
    ∃ g, build doublingSteps "S" = .ok g ∧ g.start = 0 ∧ g.nonterms = #["S"] ∧
      g.rules =
        #[⟨0, #[.nonterm 0, .nonterm 0]⟩, ⟨0, #[.terminal (.literal ['a'])]⟩, ⟨0, #[]⟩] :=
  exists_build_of_run run_doublingSteps (by decide +kernel)

theorem generates_doubling {g : Grammar} (hstart : g.start = 0)
    (hrules : g.rules =
      #[⟨0, #[.nonterm 0, .nonterm 0]⟩, ⟨0, #[.terminal (.literal ['a'])]⟩, ⟨0, #[]⟩]) :
    g.Generates [.nonterm g.start] ['a', 'a'] := by
  have hletter : g.Generates [.nonterm 0] ['a'] :=
    generates_nonterm_iff.2 ⟨⟨0, #[.terminal (.literal ['a'])]⟩, by simp [hrules], rfl,
      .terminal (u := ['a']) rfl .nil⟩
  rw [hstart]
  exact generates_nonterm_iff.2 ⟨⟨0, #[.nonterm 0, .nonterm 0]⟩, by simp [hrules], rfl,
    hletter.append hletter⟩

theorem getElem?_nonterms {g : Grammar} {id : Nat} (hid : id < g.nonterms.size) :
    g.nonterms[id]? = some (g.name id) := by
  rw [name, Array.getD_eq_getD_getElem?, Array.getElem?_eq_getElem hid, Option.getD_some]

theorem map_rule_range (g : Grammar) : (List.range g.rules.size).map g.rule = g.rules.toList := by
  apply List.ext_getElem
  · simp
  · intro index h _
    rw [List.length_map, List.length_range] at h
    simp [rule_eq_getElem h]

/-- A non-terminal with a rule has a list of its rules. -/
theorem getElem?_alternatives {g : Grammar} {id : Nat} (h : g.alternativesOf id ≠ []) :
    g.alternatives[id]? = some (g.alternativesOf id) := by
  rw [alternativesOf, Array.getD_eq_getD_getElem?] at h ⊢
  cases hget : g.alternatives[id]? with
  | none =>
    rw [hget] at h
    exact absurd rfl h
  | some rules => rfl

namespace WellFormed

variable {g : Grammar}

theorem mem_alternativesOf_iff (h : g.WellFormed) {id index : Nat} :
    index ∈ g.alternativesOf id ↔ index < g.rules.size ∧ (g.rule index).head = id := by
  rw [h.alternativesOf_eq, List.mem_filter, List.mem_range, beq_iff_eq]

theorem head_rule_lt (h : g.WellFormed) {index : Nat} (hindex : index < g.rules.size) :
    (g.rule index).head < g.nonterms.size :=
  h.head_lt _ (rule_mem hindex)

/-- Different non-terminals have different names. -/
theorem name_injective (h : g.WellFormed) {i j : Nat} (hi : i < g.nonterms.size)
    (hj : j < g.nonterms.size) (hname : g.name i = g.name j) : i = j := by
  have hget {k : Nat} (hk : k < g.nonterms.size) : g.nonterm? (g.name k) = some k := by
    rw [h.nonterm?_eq_some_iff, getElem?_nonterms hk]
  have hsame := hget hi
  rw [hname, hget hj] at hsame
  exact (Option.some.inj hsame).symm

theorem nodup_nonterms (h : g.WellFormed) : g.nonterms.toList.Nodup := by
  rw [List.Nodup, List.pairwise_iff_getElem]
  intro i j hi hj hij hname
  rw [Array.length_toList] at hi hj
  rw [Array.getElem_toList, Array.getElem_toList] at hname
  refine Nat.ne_of_lt hij (h.name_injective hi hj ?_)
  rw [name, name, Array.getD_eq_getD_getElem?, Array.getD_eq_getD_getElem?,
    Array.getElem?_eq_getElem hi, Array.getElem?_eq_getElem hj, hname]

theorem nonterm?_eq_some_iff_name (h : g.WellFormed) {n : String} {id : Nat} :
    g.nonterm? n = some id ↔ id < g.nonterms.size ∧ g.name id = n := by
  rw [h.nonterm?_eq_some_iff, Array.getElem?_eq_some_iff, name, Array.getD_eq_getD_getElem?]
  constructor
  · rintro ⟨hid, rfl⟩
    exact ⟨hid, by rw [Array.getElem?_eq_getElem hid, Option.getD_some]⟩
  · rintro ⟨hid, hname⟩
    rw [Array.getElem?_eq_getElem hid, Option.getD_some] at hname
    exact ⟨hid, hname⟩

theorem mem_alternativesOf_iff_getElem? (h : g.WellFormed) {id index : Nat} :
    index ∈ g.alternativesOf id ↔ ∃ rule, g.rules[index]? = some rule ∧ rule.head = id := by
  rw [h.mem_alternativesOf_iff]
  constructor
  · rintro ⟨hindex, rfl⟩
    exact ⟨g.rule index, by rw [rule_eq_getElem hindex, Array.getElem?_eq_getElem hindex], rfl⟩
  · rintro ⟨rule, hrule, rfl⟩
    obtain ⟨hindex, rfl⟩ := Array.getElem?_eq_some_iff.1 hrule
    exact ⟨hindex, by rw [rule_eq_getElem hindex]⟩

theorem pairwise_alternativesOf (h : g.WellFormed) (id : Nat) :
    (g.alternativesOf id).Pairwise (· < ·) := by
  rw [h.alternativesOf_eq]
  exact List.pairwise_lt_range.filter _

/-- A non-terminal that is used is the head of some rule. -/
theorem exists_rule_of_mem_used (h : g.WellFormed) {id : Nat}
    (hid : id ∈ Builder.used g.start g.rules) : ∃ rule ∈ g.rules, rule.head = id := by
  obtain ⟨index, hindex⟩ := List.exists_mem_of_ne_nil _ (h.productive id hid)
  obtain ⟨rule, hrule, hhead⟩ := h.mem_alternativesOf_iff_getElem?.1 hindex
  exact ⟨rule, Array.mem_of_getElem? hrule, hhead⟩

end WellFormed

/-- The start symbol is the non-terminal that was asked for. -/
theorem nonterm?_start_of_build {steps : List Step} {start : String} {g : Grammar}
    (h : build steps start = .ok g) : g.nonterm? start = some g.start := by
  obtain ⟨-, hstart, -, hnonterms, -⟩ := Builder.finish_eq_ok_iff.1 h
  rw [(wellFormed_of_build h).nonterm?_eq_some_iff, hnonterms]
  exact ((Builder.consistent_run steps).nonterm_iff start g.start).1 hstart

end Grammar

/-- A terminal that can match something is a literal with a character or a range in order. -/
theorem Terminal.isVacuous_eq_false_iff {t : Terminal} :
    t.isVacuous = false ↔
      (∃ cs, cs ≠ [] ∧ t = .literal cs) ∨ ∃ lo hi, lo ≤ hi ∧ t = .range lo hi := by
  cases t with
  | literal cs => cases cs <;> simp [isVacuous]
  | range lo hi => simp [isVacuous]

namespace Builder

theorem mem_used_start (start : Nat) (rules : Array Rule) : start ∈ used start rules :=
  List.mem_cons_self

theorem mem_used_of_mem_body {start id : Nat} {rules : Array Rule} {rule : Rule}
    (hrule : rule ∈ rules) (hid : .nonterm id ∈ rule.body) : id ∈ used start rules := by
  refine List.mem_cons_of_mem _ (List.mem_flatMap.2 ⟨rule, Array.mem_toList_iff.2 hrule, ?_⟩)
  exact List.mem_filterMap.2 ⟨_, Array.mem_toList_iff.2 hid, rfl⟩

end Builder

/-- **The tables of a grammar agree**, whatever the steps were that it was built from. Names and
numbers of non-terminals determine one another, and rules mention only numbers that there are and
terminals that can match something. No rule is there twice, and the alternatives of a non-terminal
are the numbers of its rules, ascending. The start symbol is the one that was asked for, and it and
every non-terminal in a body have a rule. -/
theorem tables_agree {steps : List Step} {start : String} {g : Grammar}
    (h : Grammar.build steps start = .ok g) :
    g.nonterms.toList.Nodup ∧
    (∀ name id, g.nonterm? name = some id ↔ id < g.nonterms.size ∧ g.name id = name) ∧
    (∀ rule ∈ g.rules, rule.head < g.nonterms.size ∧
      (∀ id, .nonterm id ∈ rule.body → id < g.nonterms.size) ∧
      ∀ t, .terminal t ∈ rule.body →
        (∃ cs, cs ≠ [] ∧ t = .literal cs) ∨ ∃ lo hi, lo ≤ hi ∧ t = .range lo hi) ∧
    g.rules.toList.Nodup ∧
    (∀ id, (g.alternativesOf id).Pairwise (· < ·) ∧
      ∀ index, index ∈ g.alternativesOf id ↔
        ∃ rule, g.rules[index]? = some rule ∧ rule.head = id) ∧
    g.nonterm? start = some g.start ∧
    (∃ rule ∈ g.rules, rule.head = g.start) ∧
    ∀ rule ∈ g.rules, ∀ id, .nonterm id ∈ rule.body → ∃ rule' ∈ g.rules, rule'.head = id := by
  have hg := Grammar.wellFormed_of_build h
  refine ⟨hg.nodup_nonterms, fun name id => hg.nonterm?_eq_some_iff_name, fun rule hrule => ?_,
    hg.nodup, fun id => ⟨hg.pairwise_alternativesOf id, fun index => ?_⟩,
    Grammar.nonterm?_start_of_build h, ?_, fun rule hrule id hid => ?_⟩
  · exact ⟨hg.head_lt rule hrule, hg.nonterm_lt rule hrule, fun t ht =>
      Terminal.isVacuous_eq_false_iff.1 (hg.not_vacuous rule hrule t ht)⟩
  · exact hg.mem_alternativesOf_iff_getElem?
  · exact hg.exists_rule_of_mem_used (Builder.mem_used_start g.start g.rules)
  · exact hg.exists_rule_of_mem_used (Builder.mem_used_of_mem_body hrule hid)

/-- Steps in which names come twice: `S` also as a terminal and `a` also as a non-terminal, one
terminal under two names, and one rule by either of them. -/
def reusingSteps : List Step :=
  [.nonterm false "S", .terminal true "S" (.literal ['x']), .terminal false "a" (.literal ['a']),
    .terminal false "b" (.literal ['a']), .nonterm true "a", .rule false "S" ["S", "b"],
    .rule true "S" ["S", "a"], .rule false "S" []]

theorem run_reusingSteps :
    (Builder.run reusingSteps).error = none ∧
      (Builder.run reusingSteps).symbols["S"]? = some (.nonterm 0) ∧
      (Builder.run reusingSteps).nonterms = #["S"] ∧
      (Builder.run reusingSteps).rules =
        #[⟨0, #[.nonterm 0, .terminal (.literal ['a'])]⟩, ⟨0, #[]⟩] := by
  cbv

theorem tables_agree_reusingSteps :
    ∃ g, Grammar.build reusingSteps "S" = .ok g ∧ g.nonterm? "S" = some g.start ∧
      g.nonterms.toList.Nodup ∧ g.rules.toList.Nodup ∧
      (∀ index, index ∈ g.alternativesOf g.start ↔
        ∃ rule, g.rules[index]? = some rule ∧ rule.head = g.start) ∧
      ∃ rule ∈ g.rules, rule.head = g.start := by
  obtain ⟨g, hbuild, -⟩ := Grammar.exists_build_of_run run_reusingSteps (by decide +kernel)
  obtain ⟨hnodup, -, -, hrules, halternatives, hstart, hproductive, -⟩ := tables_agree hbuild
  exact ⟨g, hbuild, hstart, hnodup, hrules, (halternatives g.start).2, hproductive⟩

end Earley
