/-
  What a grammar builder reports.

  A step is judged by the tables in front of it: `Mistaken` lists the mistakes that it can make and
  the error of each. A mistaken step adds nothing and is remembered if it is the first one
  (`error_run`); a step that repeats what is there and is quiet about it does nothing at
  all. Where no step is mistaken, what remains is what the finished tables lack (`Lacks`).

  So a grammar is put together just if no step is mistaken and nothing is lacking, and otherwise the
  first mistake is reported, or else the first thing that is lacking (`build_reports_first`).
-/
import Earley.Proofs.Grammar.WellFormed

namespace Earley

/-- An element of a list with one more at the end is that one or stands in the list. -/
theorem exists_split_concat_iff {α : Type} {P : List α → α → Prop} {xs : List α} {y : α} :
    (∃ before x after, xs ++ [y] = before ++ x :: after ∧ P before x) ↔
      (∃ before x after, xs = before ++ x :: after ∧ P before x) ∨ P xs y := by
  constructor
  · rintro ⟨before, x, after, heq, h⟩
    rcases List.eq_nil_or_concat after with rfl | ⟨after, last, rfl⟩
    · obtain ⟨rfl, hlast⟩ := List.append_inj' heq rfl
      cases hlast
      exact Or.inr h
    · rw [List.concat_eq_append, ← List.cons_append, ← List.append_assoc] at heq
      exact Or.inl ⟨before, x, after, (List.append_inj' heq rfl).1, h⟩
  · rintro (⟨before, x, after, rfl, h⟩ | h)
    · exact ⟨before, x, after ++ [y], by simp, h⟩
    · exact ⟨xs, y, [], rfl, h⟩

theorem not_exists_split_nil {α : Type} {P : List α → α → Prop} :
    ¬∃ before x after, ([] : List α) = before ++ x :: after ∧ P before x := by
  rintro ⟨before, x, after, heq, -⟩
  cases before <;> cases heq

namespace Builder

/-! ### Mistakes -/

/-- Tells that `head` and `body` are names of the head and of the symbols in the body of a rule. -/
def Denotes (b : Builder) (head : String) (body : List String) (rule : Rule) : Prop :=
  b.symbols[head]? = some (.nonterm rule.head) ∧
    List.Forall₂ (fun name symbol => b.symbols[name]? = some symbol) body rule.body.toList

/-- Tells that the name that a step registers is taken, or the rule that it adds is there. -/
def Repeats (b : Builder) : Step → Prop
  | .nonterm _ name | .terminal _ name _ => b.contains name = true
  | .rule _ head body => ∃ rule ∈ b.rules, b.Denotes head body rule

/-- Tells that a step is a mistake in front of these tables, and which error it is. The names in a
body are looked at from left to right, and the head behind them. -/
inductive Mistaken (b : Builder) : Step → GrammarError → Prop
  | duplicateSymbol {step : Step} {name : String} (hloud : step.isQuiet = false)
      (hname : step.registers? = some name) (hknown : b.contains name = true) :
    Mistaken b step (.duplicateSymbol name)
  | emptyTerminal {quiet : Bool} {name : String} {t : Terminal} (hnew : b.contains name = false)
      (ht : t.isVacuous = true) : Mistaken b (.terminal quiet name t) (.emptyTerminal name)
  | missingSymbol {quiet : Bool} {head name : String} {before after : List String}
      (hbefore : ∀ n ∈ before, b.contains n = true) (hname : b.contains name = false) :
    Mistaken b (.rule quiet head (before ++ name :: after)) (.missingSymbol name)
  | missingHead {quiet : Bool} {head : String} {body : List String}
      (hbody : ∀ n ∈ body, b.contains n = true) (hhead : b.contains head = false) :
    Mistaken b (.rule quiet head body) (.missingSymbol head)
  | terminalHead {quiet : Bool} {head : String} {body : List String} {t : Terminal}
      (hbody : ∀ n ∈ body, b.contains n = true) (hhead : b.symbols[head]? = some (.terminal t)) :
    Mistaken b (.rule quiet head body) (.notNonterminal head)
  | duplicateRule {head : String} {body : List String} {rule : Rule} (hrule : rule ∈ b.rules)
      (hdenotes : b.Denotes head body rule) :
    Mistaken b (.rule false head body) (.duplicateRule (Grammar.ruleLine head body))

variable {b : Builder} {step : Step} {e : GrammarError} {names body : List String} {head : String}

theorem resolve_eq_error_iff :
    b.resolve names = .error e ↔
      ∃ before name after, names = before ++ name :: after ∧
        (∀ n ∈ before, b.contains n = true) ∧ b.contains name = false ∧
          e = .missingSymbol name := by
  induction names with
  | nil => simp [resolve]
  | cons name names ih =>
    rw [resolve]
    cases hname : b.symbols[name]? with
    | none =>
      have hnew : b.contains name = false := contains_eq_false_iff.2 hname
      constructor
      · rintro ⟨⟩
        exact ⟨[], name, names, rfl, List.forall_mem_nil _, hnew, rfl⟩
      · rintro ⟨_ | ⟨first, before⟩, name', after, heq, hbefore, -, rfl⟩
        · cases heq
          rfl
        · cases heq
          rw [hbefore name List.mem_cons_self] at hnew
          cases hnew
    | some symbol =>
      have hknown : b.contains name = true := contains_eq_true_iff.2 ⟨symbol, hname⟩
      have hrest : (b.resolve names).map (symbol :: ·) = .error e ↔ b.resolve names = .error e := by
        cases b.resolve names <;> simp [Except.map]
      rw [hrest, ih]
      constructor
      · rintro ⟨before, name', after, rfl, hbefore, hnew, rfl⟩
        exact ⟨name :: before, name', after, rfl, List.forall_mem_cons.2 ⟨hknown, hbefore⟩, hnew,
          rfl⟩
      · rintro ⟨_ | ⟨first, before⟩, name', after, heq, hbefore, hnew, rfl⟩
        · cases heq
          rw [hknown] at hnew
          cases hnew
        · cases heq
          exact ⟨before, name', after, rfl, (List.forall_mem_cons.1 hbefore).2, hnew, rfl⟩

theorem exists_resolve_eq_ok_iff :
    (∃ symbols, b.resolve names = .ok symbols) ↔ ∀ n ∈ names, b.contains n = true := by
  induction names with
  | nil => simp [resolve]
  | cons name names ih =>
    rw [resolve, List.forall_mem_cons, ← ih, contains_eq_true_iff]
    cases b.symbols[name]? with
    | none => simp
    | some symbol => cases b.resolve names <;> simp [Except.map]

theorem resolveNonterm_eq_error_iff {name : String} :
    b.resolveNonterm name = .error e ↔
      b.contains name = false ∧ e = .missingSymbol name ∨
        (∃ t, b.symbols[name]? = some (.terminal t)) ∧ e = .notNonterminal name := by
  rw [contains_eq_false_iff, resolveNonterm]
  split <;> simp_all [eq_comm]

/-- A rule does not resolve if a name in its body is missing, or else its head is not the name of a
non-terminal. -/
theorem resolveRule_eq_error_iff :
    b.resolveRule head body = .error e ↔
      b.resolve body = .error e ∨
        (∀ n ∈ body, b.contains n = true) ∧ b.resolveNonterm head = .error e := by
  rw [← exists_resolve_eq_ok_iff, resolveRule]
  cases b.resolve body with
  | error e' => simp [bind, Except.bind]
  | ok symbols => cases b.resolveNonterm head <;> simp [bind, Except.bind, pure, Except.pure]

/-- The mistakes are just the reasons for which a step is rejected. -/
theorem Consistent.mistaken_iff (h : b.Consistent) : b.Mistaken step e ↔ b.Rejects step e := by
  constructor
  · intro hmistaken
    cases hmistaken with
    | duplicateSymbol hloud hname hknown =>
      cases step with
      | nonterm quiet name' =>
        cases hname
        exact ⟨hloud, hknown, rfl⟩
      | terminal quiet name' t =>
        cases hname
        exact Or.inl ⟨hloud, hknown, rfl⟩
      | rule => cases hname
    | emptyTerminal hnew ht => exact Or.inr ⟨hnew, ht, rfl⟩
    | missingSymbol hbefore hname =>
      exact Or.inl (resolveRule_eq_error_iff.2
        (Or.inl (resolve_eq_error_iff.2 ⟨_, _, _, rfl, hbefore, hname, rfl⟩)))
    | missingHead hbody hhead =>
      exact Or.inl (resolveRule_eq_error_iff.2
        (Or.inr ⟨hbody, resolveNonterm_eq_error_iff.2 (Or.inl ⟨hhead, rfl⟩)⟩))
    | terminalHead hbody hhead =>
      exact Or.inl (resolveRule_eq_error_iff.2
        (Or.inr ⟨hbody, resolveNonterm_eq_error_iff.2 (Or.inr ⟨⟨_, hhead⟩, rfl⟩)⟩))
    | @duplicateRule _ _ rule hrule hdenotes =>
      exact Or.inr ⟨rfl, ⟨rule, (h.seen_iff rule).2 hrule, resolveRule_eq_ok_iff.2 hdenotes⟩, rfl⟩
  · intro hrejects
    cases step with
    | nonterm quiet name =>
      obtain ⟨hloud, hknown, rfl⟩ := hrejects
      exact .duplicateSymbol hloud rfl hknown
    | terminal quiet name t =>
      rcases hrejects with ⟨hloud, hknown, rfl⟩ | ⟨hnew, ht, rfl⟩
      · exact .duplicateSymbol hloud rfl hknown
      · exact .emptyTerminal hnew ht
    | rule quiet head body =>
      rcases hrejects with herror | ⟨rfl, ⟨rule, hseen, hrule⟩, rfl⟩
      · rcases resolveRule_eq_error_iff.1 herror with hbody | ⟨hbody, hhead⟩
        · obtain ⟨before, name, after, rfl, hbefore, hname, rfl⟩ := resolve_eq_error_iff.1 hbody
          exact .missingSymbol hbefore hname
        · rcases resolveNonterm_eq_error_iff.1 hhead with ⟨hnew, rfl⟩ | ⟨⟨t, ht⟩, rfl⟩
          · exact .missingHead hbody hnew
          · exact .terminalHead hbody ht
      · exact .duplicateRule ((h.seen_iff rule).1 hseen) (resolveRule_eq_ok_iff.1 hrule)

/-- A step is rejected for one reason only. -/
theorem Rejects.unique {e' : GrammarError} (h : b.Rejects step e) (h' : b.Rejects step e') :
    e = e' := by
  cases step with
  | nonterm quiet name =>
    obtain ⟨-, -, rfl⟩ := h
    exact h'.2.2.symm
  | terminal quiet name t =>
    rcases h with ⟨-, hknown, rfl⟩ | ⟨hnew, -, rfl⟩
    · rcases h' with ⟨-, -, rfl⟩ | ⟨hnew, -, rfl⟩
      · rfl
      · rw [hknown] at hnew
        cases hnew
    · rcases h' with ⟨-, hknown, rfl⟩ | ⟨-, -, rfl⟩
      · rw [hknown] at hnew
        cases hnew
      · rfl
  | rule quiet head body =>
    rcases h with herror | ⟨-, ⟨rule, -, hrule⟩, rfl⟩
    · rcases h' with herror' | ⟨-, ⟨rule, -, hrule⟩, rfl⟩
      · exact Except.error.inj (herror.symm.trans herror')
      · rw [herror] at hrule
        cases hrule
    · rcases h' with herror | ⟨-, -, rfl⟩
      · rw [hrule] at herror
        cases herror
      · rfl

theorem Consistent.knows_iff (h : b.Consistent) : b.Knows step ↔ b.Repeats step := by
  cases step with
  | nonterm | terminal => rfl
  | rule quiet head body => simp only [Knows, Repeats, h.seen_iff, resolveRule_eq_ok_iff, Denotes]

/-! ### Steps that add nothing -/

theorem apply_of_rejects (h : b.Rejects step e) : b.apply step = b.fail e := by
  cases step with
  | nonterm quiet name =>
    obtain ⟨rfl, hknown, rfl⟩ := h
    rw [apply, addNonterm, hknown]
    rfl
  | terminal quiet name t =>
    rw [apply, addTerminal]
    rcases h with ⟨rfl, hknown, rfl⟩ | ⟨hnew, ht, rfl⟩
    · rw [hknown]
      rfl
    · rw [hnew, ht]
      rfl
  | rule quiet head body =>
    rw [apply, addRule]
    rcases h with herror | ⟨rfl, ⟨rule, hseen, hrule⟩, rfl⟩
    · rw [herror]
    · rw [hrule]
      dsimp only
      rw [if_pos (Std.HashSet.contains_iff_mem.2 hseen)]
      rfl

theorem apply_of_knows (hquiet : step.isQuiet = true) (h : b.Knows step) : b.apply step = b := by
  cases step with
  | nonterm quiet name =>
    cases hquiet
    rw [apply, addNonterm, h]
    rfl
  | terminal quiet name t =>
    cases hquiet
    rw [apply, addTerminal, h]
    rfl
  | rule quiet head body =>
    obtain ⟨rule, hseen, hrule⟩ := h
    cases hquiet
    rw [apply, addRule, hrule]
    dsimp only
    rw [if_pos (Std.HashSet.contains_iff_mem.2 hseen)]
    rfl

theorem Consistent.apply_of_mistaken (h : b.Consistent) (hmistaken : b.Mistaken step e) :
    b.apply step = b.fail e :=
  apply_of_rejects (h.mistaken_iff.1 hmistaken)

/-- A step that is not mistaken leaves the error as it is. -/
theorem Consistent.error_apply (h : b.Consistent) (hright : ∀ e, ¬b.Mistaken step e) :
    (b.apply step).error = b.error := by
  have heffect := effect_apply b step
  generalize b.apply step = b' at heffect
  cases heffect with
  | nonterm | terminal | rule | known => rfl
  | rejected hrejects => exact absurd (h.mistaken_iff.2 hrejects) (hright _)

/-! ### The first mistake -/

variable {steps : List Step}

/-- Tells that no step is a mistake in front of the tables that the steps before it leave. -/
def Faultless (steps : List Step) : Prop :=
  ¬∃ before step after, steps = before ++ step :: after ∧ ∃ e, (run before).Mistaken step e

/-- Tells that a step is mistaken and that none before it is, and which error it is. -/
def FirstMistake (steps : List Step) (e : GrammarError) : Prop :=
  ∃ before step after, steps = before ++ step :: after ∧
    Faultless before ∧ (run before).Mistaken step e

theorem faultless_concat_iff :
    Faultless (steps ++ [step]) ↔ Faultless steps ∧ ∀ e, ¬(run steps).Mistaken step e := by
  rw [Faultless, exists_split_concat_iff, not_or, Faultless, not_exists (p := (Mistaken _ _))]

theorem firstMistake_concat_iff :
    FirstMistake (steps ++ [step]) e ↔
      FirstMistake steps e ∨ Faultless steps ∧ (run steps).Mistaken step e :=
  exists_split_concat_iff

/-- Where no step is mistaken there is no error, and else it is that of the first mistake. -/
theorem error_run (steps : List Step) :
    ((run steps).error = none ↔ Faultless steps) ∧
      ∀ e, (run steps).error = some e ↔ FirstMistake steps e := by
  induction steps using List.reverseRecOn with
  | nil =>
    exact ⟨iff_of_true rfl not_exists_split_nil,
      fun e => iff_of_false nofun not_exists_split_nil⟩
  | append_singleton steps step ih =>
    obtain ⟨hnone, hsome⟩ := ih
    have hconsistent := consistent_run steps
    simp only [faultless_concat_iff, firstMistake_concat_iff, ← hnone, ← hsome, run_concat]
    by_cases hright : ∀ e, ¬(run steps).Mistaken step e
    · rw [hconsistent.error_apply hright]
      simp [hright]
    · obtain ⟨e, hmistaken⟩ := not_forall_not.1 hright
      have honly (e' : GrammarError) : (run steps).Mistaken step e' ↔ e = e' := by
        constructor
        · intro hmistaken'
          rw [hconsistent.mistaken_iff] at hmistaken hmistaken'
          exact hmistaken.unique hmistaken'
        · rintro rfl
          exact hmistaken
      rw [hconsistent.apply_of_mistaken hmistaken]
      simp only [honly, fail]
      cases (run steps).error <;> simp

/-! ### Registered names -/

/-- A name is registered behind a step if it was before, or if the step is for it and is not
mistaken. -/
theorem Consistent.contains_apply_iff (h : b.Consistent) (name : String) :
    (b.apply step).contains name = true ↔
      b.contains name = true ∨ step.registers? = some name ∧ b.contains name = false ∧
        ∀ e, ¬b.Mistaken step e := by
  have heffect := effect_apply b step
  simp only [h.mistaken_iff]
  cases hknown : b.contains name with
  | true =>
    obtain ⟨symbol, hsymbol⟩ := contains_eq_true_iff.1 hknown
    exact iff_of_true (contains_eq_true_iff.2 ⟨symbol, heffect.symbols hsymbol⟩) (Or.inl rfl)
  | false =>
    simp only [Bool.false_eq_true, false_or, true_and]
    constructor
    · intro hname
      obtain ⟨symbol, hsymbol⟩ := contains_eq_true_iff.1 hname
      rcases heffect.symbols_cases hsymbol with hold | ⟨quiet, rfl, -⟩ | ⟨quiet, t, rfl, -, ht⟩
      · rw [contains_eq_true_iff.2 ⟨symbol, hold⟩] at hknown
        cases hknown
      · exact ⟨rfl, by simp [Rejects, hknown]⟩
      · exact ⟨rfl, by simp [Rejects, hknown, ht]⟩
    · rintro ⟨hname, hright⟩
      generalize b.apply step = b' at heffect
      cases heffect with
      | nonterm | terminal =>
        cases hname
        exact contains_eq_true_iff.2 ⟨_, Std.HashMap.getElem?_insert_self⟩
      | rule => cases hname
      | known hrepeated =>
        cases step with
        | nonterm | terminal =>
          cases hname
          exact hrepeated
        | rule => cases hname
      | rejected hrejects => exact absurd hrejects (hright _)

/-- A name is registered by the one step for it that finds it new and is not mistaken. -/
theorem contains_run_iff_exists (steps : List Step) (name : String) :
    (run steps).contains name = true ↔
      ∃ before step after, steps = before ++ step :: after ∧ step.registers? = some name ∧
        (run before).contains name = false ∧ ∀ e, ¬(run before).Mistaken step e := by
  induction steps using List.reverseRecOn with
  | nil => exact iff_of_false (by simp [contains, run, empty]) not_exists_split_nil
  | append_singleton steps step ih =>
    rw [run_concat, (consistent_run steps).contains_apply_iff, ih, exists_split_concat_iff]

/-! ### What finishing reports -/

/-- Tells that there is no grammar with the start symbol `start` although no step is mistaken, and
which error it is: the name is not that of a non-terminal, or of the non-terminals that are used,
the start symbol before those in the bodies of the rules, some have no rules, and it is the first of
these. -/
inductive Lacks (b : Builder) (start : String) : GrammarError → Prop
  | startMissing (h : b.contains start = false) : Lacks b start (.missingSymbol start)
  | startTerminal {t : Terminal} (h : b.symbols[start]? = some (.terminal t)) :
    Lacks b start (.notNonterminal start)
  | rules {id id' : Nat} {before after : List Nat} {name : String}
      (hstart : b.symbols[start]? = some (.nonterm id))
      (hused : used id b.rules = before ++ id' :: after)
      (hbefore : ∀ i ∈ before, ∃ rule ∈ b.rules, rule.head = i)
      (hnone : ∀ rule ∈ b.rules, rule.head ≠ id')
      (hname : b.symbols[name]? = some (.nonterm id')) : Lacks b start (.noRules name)

variable {start : String}

theorem Consistent.isEmpty_getD_groupByHead_iff (h : b.Consistent) {id : Nat} :
    ((groupByHead b.nonterms.size b.rules).getD id []).isEmpty = true ↔
      ∀ rule ∈ b.rules, rule.head ≠ id := by
  rw [getD_groupByHead (fun index => head_getD_lt h) id, List.isEmpty_iff, List.filter_eq_nil_iff]
  simp only [List.mem_range, beq_iff_eq]
  constructor
  · intro hnone rule hrule
    obtain ⟨index, hindex, rfl⟩ := Array.mem_iff_getElem.1 hrule
    simpa [Array.getD_eq_getD_getElem?, hindex] using hnone index hindex
  · intro hnone index hindex
    simpa [Array.getD_eq_getD_getElem?, hindex] using hnone _ (Array.getElem_mem hindex)

/-- A non-terminal that is used has a name. -/
theorem Consistent.exists_name_of_mem_used (h : b.Consistent) {id id' : Nat}
    (hstart : b.symbols[start]? = some (.nonterm id)) (hid' : id' ∈ used id b.rules) :
    ∃ name : String, b.symbols[name]? = some (.nonterm id') := by
  rcases List.mem_cons.1 hid' with rfl | hid'
  · exact ⟨start, hstart⟩
  · obtain ⟨rule, hrule, hid'⟩ := List.mem_flatMap.1 hid'
    obtain ⟨symbol, hsymbol, hid'⟩ := List.mem_filterMap.1 hid'
    cases symbol with
    | nonterm id'' =>
      cases hid'
      exact h.body rule (Array.mem_toList_iff.1 hrule) _ (Array.mem_toList_iff.1 hsymbol)
    | terminal t => cases hid'

/-- The first non-terminal without rules is found among those that are used. -/
theorem Consistent.find?_used_eq_some_iff (h : b.Consistent) {id id' : Nat} :
    ((used id b.rules).find? fun i =>
        ((groupByHead b.nonterms.size b.rules).getD i []).isEmpty) = some id' ↔
      (∀ rule ∈ b.rules, rule.head ≠ id') ∧
        ∃ before after, used id b.rules = before ++ id' :: after ∧
          ∀ i ∈ before, ∃ rule ∈ b.rules, rule.head = i := by
  rw [List.find?_eq_some_iff_append, h.isEmpty_getD_groupByHead_iff]
  simp only [Bool.not_eq_true', ← Bool.not_eq_true, h.isEmpty_getD_groupByHead_iff, not_forall,
    not_not, exists_prop]

/-- If the start symbol is a non-terminal, only rules can be lacking. -/
theorem Consistent.lacks_iff (h : b.Consistent) {id : Nat}
    (hstart : b.symbols[start]? = some (.nonterm id)) :
    b.Lacks start e ↔
      ∃ id' name, ((used id b.rules).find? fun i =>
          ((groupByHead b.nonterms.size b.rules).getD i []).isEmpty) = some id' ∧
        b.symbols[name]? = some (.nonterm id') ∧ e = .noRules name := by
  simp only [h.find?_used_eq_some_iff]
  constructor
  · intro hlacks
    cases hlacks with
    | startMissing hnew =>
      rw [contains_eq_true_iff.2 ⟨_, hstart⟩] at hnew
      cases hnew
    | startTerminal ht =>
      rw [hstart] at ht
      cases ht
    | rules hstart' hused hbefore hnone hname =>
      rw [hstart] at hstart'
      cases hstart'
      exact ⟨_, _, ⟨hnone, _, _, hused, hbefore⟩, hname, rfl⟩
  · rintro ⟨id', name, ⟨hnone, before, after, hused, hbefore⟩, hname, rfl⟩
    exact .rules hstart hused hbefore hnone hname

theorem Consistent.getD_nonterms (h : b.Consistent) {name : String} {id : Nat}
    (hname : b.symbols[name]? = some (.nonterm id)) : b.nonterms.getD id "" = name := by
  rw [Array.getD_eq_getD_getElem?, (h.nonterm_iff name id).1 hname, Option.getD_some]

theorem Consistent.finish_eq_error_iff (h : b.Consistent) :
    b.finish start = .error e ↔ b.error = some e ∨ b.error = none ∧ b.Lacks start e := by
  rw [finish]
  cases b.error with
  | some e' => simp
  | none =>
    simp only [reduceCtorEq, false_or, true_and]
    cases hstart : b.resolveNonterm start with
    | error e' =>
      rw [Except.error.injEq]
      constructor
      · rintro rfl
        rcases resolveNonterm_eq_error_iff.1 hstart with ⟨hnew, rfl⟩ | ⟨⟨t, ht⟩, rfl⟩
        · exact .startMissing hnew
        · exact .startTerminal ht
      · intro hlacks
        apply Except.error.inj (hstart.symm.trans _)
        cases hlacks with
        | startMissing hnew => exact resolveNonterm_eq_error_iff.2 (Or.inl ⟨hnew, rfl⟩)
        | startTerminal ht => exact resolveNonterm_eq_error_iff.2 (Or.inr ⟨⟨_, ht⟩, rfl⟩)
        | rules hid =>
          rw [resolveNonterm_eq_ok_iff.2 hid] at hstart
          cases hstart
    | ok id =>
      rw [resolveNonterm_eq_ok_iff] at hstart
      rw [h.lacks_iff hstart]
      dsimp only
      split
      · next id' hfind =>
        rw [Except.error.injEq]
        constructor
        · rintro rfl
          obtain ⟨name, hname⟩ :=
            h.exists_name_of_mem_used hstart (List.mem_of_find?_eq_some hfind)
          exact ⟨id', name, hfind, hname, congrArg GrammarError.noRules (h.getD_nonterms hname)⟩
        · rintro ⟨id'', name, hfind', hname, rfl⟩
          cases hfind.symm.trans hfind'
          exact congrArg GrammarError.noRules (h.getD_nonterms hname)
      · next hfind =>
        refine iff_of_false (by simp) ?_
        rintro ⟨id', name, hfind', -⟩
        cases hfind.symm.trans hfind'

end Builder

open Builder in
/-- **The first mistake is reported, and a step that adds nothing changes nothing.** If a step is
mistaken in front of the tables that those before it leave, the error is that of the first such
step, whatever follows it. Otherwise it is what the finished tables lack: the start symbol, or a
rule of the first non-terminal that is used and has none. If nothing is lacking there is a grammar.
A mistaken step, and a quiet one that repeats what is there, leave all tables as they are; and so a
name is registered just if a step for it found it new and was not mistaken. -/
theorem build_reports_first (steps : List Step) (start : String) :
    (∀ e, Grammar.build steps start = .error e ↔
      FirstMistake steps e ∨ Faultless steps ∧ (run steps).Lacks start e) ∧
    ((∃ g, Grammar.build steps start = .ok g) ↔
      Faultless steps ∧ ∀ e, ¬(run steps).Lacks start e) ∧
    (∀ step, (∃ e, (run steps).Mistaken step e) ∨
        step.isQuiet = true ∧ (run steps).Repeats step →
      (run (steps ++ [step])).symbols = (run steps).symbols ∧
      (run (steps ++ [step])).nonterms = (run steps).nonterms ∧
      (run (steps ++ [step])).rules = (run steps).rules ∧
      (run (steps ++ [step])).seen = (run steps).seen) ∧
    ∀ name, (run steps).contains name = true ↔
      ∃ before step after, steps = before ++ step :: after ∧ step.registers? = some name ∧
        (run before).contains name = false ∧ ∀ e, ¬(run before).Mistaken step e := by
  have hconsistent := consistent_run steps
  obtain ⟨hnone, hsome⟩ := error_run steps
  have hbuild (e : GrammarError) : Grammar.build steps start = .error e ↔
      FirstMistake steps e ∨ Faultless steps ∧ (run steps).Lacks start e := by
    rw [Grammar.build, hconsistent.finish_eq_error_iff, hnone, hsome]
  refine ⟨hbuild, ?_, ?_, contains_run_iff_exists steps⟩
  · have hok : (∃ g, Grammar.build steps start = .ok g) ↔
        ∀ e, ¬Grammar.build steps start = .error e := by
      cases Grammar.build steps start <;> simp
    have hfaultless : Faultless steps ↔ ∀ e, ¬FirstMistake steps e := by
      simp only [← hnone, ← hsome]
      exact Option.eq_none_iff_forall_ne_some
    simp only [hok, hbuild, not_or, not_and, forall_and, ← hfaultless]
    exact and_congr_right fun h => forall_congr' fun e => forall_prop_of_true h
  · rintro step (⟨e, hmistaken⟩ | ⟨hquiet, hrepeats⟩)
    · rw [run_concat, hconsistent.apply_of_mistaken hmistaken]
      exact ⟨rfl, rfl, rfl, rfl⟩
    · rw [run_concat, apply_of_knows hquiet (hconsistent.knows_iff.2 hrepeats)]
      exact ⟨rfl, rfl, rfl, rfl⟩

/-- The steps in front of the first mistake of `mistakenSteps`. -/
def rightSteps : List Step :=
  [.nonterm false "S", .terminal true "S" (.literal []), .terminal false "a" (.literal ['a'])]

/-- A rule with two mistakes, a name in its body that is missing and a terminal as its head, and
behind it a duplicate. -/
def mistakenSteps : List Step :=
  rightSteps ++ [.rule true "a" ["S", "b", "c"], .nonterm false "S"]

theorem run_rightSteps :
    (Builder.run rightSteps).error = none ∧ (Builder.run rightSteps).contains "S" = true ∧
      (Builder.run rightSteps).contains "b" = false := by
  cbv

theorem build_reports_first_mistakenSteps :
    Grammar.build mistakenSteps "a" = .error (.missingSymbol "b") ∧
      (Builder.run (rightSteps ++ [.rule true "a" ["S", "b", "c"]])).rules =
        (Builder.run rightSteps).rules ∧
      ∃ before step after, rightSteps = before ++ step :: after ∧ step.registers? = some "S" ∧
        (Builder.run before).contains "S" = false ∧ ∀ e, ¬(Builder.run before).Mistaken step e := by
  obtain ⟨herror, hknown, hnew⟩ := run_rightSteps
  have hfaultless := (Builder.error_run rightSteps).1.1 herror
  have hbefore : ∀ name ∈ ["S"], (Builder.run rightSteps).contains name = true := by
    simpa using hknown
  have hmistaken : (Builder.run rightSteps).Mistaken (.rule true "a" ["S", "b", "c"])
      (.missingSymbol "b") := .missingSymbol hbefore hnew
  obtain ⟨hreported, -⟩ := build_reports_first mistakenSteps "a"
  obtain ⟨-, -, hsame, hregistered⟩ := build_reports_first rightSteps "a"
  exact ⟨(hreported _).2 (Or.inl ⟨rightSteps, _, _, rfl, hfaultless, hmistaken⟩),
    (hsame _ (Or.inl ⟨_, hmistaken⟩)).2.2.1, (hregistered "S").1 hknown⟩

end Earley
