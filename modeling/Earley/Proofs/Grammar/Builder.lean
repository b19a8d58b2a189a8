/-
  `Builder` — what the steps of a grammar builder do to its tables.

  A step adds an entry, or finds it there and is quiet about it, or is rejected
  (`effect_apply`). Everything about the tables is derived from this one case distinction: the
  tables agree with each other after any steps (`consistent_run`), names keep their symbols
  (`symbols_foldl_apply`), and if no step was rejected, the rules of the builder are exactly those
  of its rule steps (`mem_rules_run_iff`).
-/
import Earley.Grammar.Builder
import Mathlib.Data.List.Forall2
import Mathlib.Data.List.Induction

namespace Earley

/-- Tells whether a step is quiet. -/
def Step.isQuiet : Step → Bool
  | nonterm quiet _ | terminal quiet _ _ | rule quiet _ _ => quiet

/-- The name that a step registers, if it registers one. -/
def Step.registers? : Step → Option String
  | nonterm _ name | terminal _ name _ => some name
  | rule _ _ _ => none

namespace Builder

/-! ### Names and symbols -/

theorem contains_eq_true_iff {b : Builder} {name : String} :
    b.contains name = true ↔ ∃ symbol, b.symbols[name]? = some symbol := by
  rw [contains, Std.HashMap.contains_eq_isSome_getElem?, Option.isSome_iff_exists]

theorem contains_eq_false_iff {b : Builder} {name : String} :
    b.contains name = false ↔ b.symbols[name]? = none := by
  rw [contains, Std.HashMap.contains_eq_isSome_getElem?, Option.isSome_eq_false_iff,
    Option.isNone_iff_eq_none]

/-- Names resolve to symbols if each of them is registered with its symbol. -/
theorem resolve_eq_ok_iff {b : Builder} {names : List String} {symbols : List Symbol} :
    b.resolve names = .ok symbols ↔
      List.Forall₂ (fun name symbol => b.symbols[name]? = some symbol) names symbols := by
  induction names generalizing symbols with
  | nil =>
    rw [List.forall₂_nil_left_iff, resolve, Except.ok.injEq]
    exact eq_comm
  | cons name names ih =>
    rw [resolve, List.forall₂_cons_left_iff]
    cases hname : b.symbols[name]? with
    | none => simp
    | some symbol =>
      cases hnames : b.resolve names with
      | error e =>
        simp only [Except.map, reduceCtorEq, false_iff]
        -- If the names behind were all registered, they would have been resolved.
        rintro ⟨_, symbols', -, hall, -⟩
        rw [← ih, hnames] at hall
        cases hall
      | ok symbols' =>
        simp only [Except.map, Except.ok.injEq, Option.some.injEq, ← ih, hnames]
        constructor
        · rintro rfl
          exact ⟨symbol, symbols', rfl, rfl, rfl⟩
        · rintro ⟨_, _, rfl, rfl, rfl⟩
          rfl

theorem resolveNonterm_eq_ok_iff {b : Builder} {name : String} {id : Nat} :
    b.resolveNonterm name = .ok id ↔ b.symbols[name]? = some (.nonterm id) := by
  unfold resolveNonterm
  split <;> simp_all

theorem resolveRule_eq_ok_iff {b : Builder} {head : String} {body : List String} {rule : Rule} :
    b.resolveRule head body = .ok rule ↔
      b.symbols[head]? = some (.nonterm rule.head) ∧
        List.Forall₂ (fun name symbol => b.symbols[name]? = some symbol) body
          rule.body.toList := by
  rw [← resolve_eq_ok_iff, ← resolveNonterm_eq_ok_iff, resolveRule]
  obtain ⟨id, symbols⟩ := rule
  cases b.resolve body with
  | error e => simp [bind, Except.bind]
  | ok found =>
    cases b.resolveNonterm head with
    | error e => simp [bind, Except.bind]
    | ok id' =>
      simp only [bind, Except.bind, pure, Except.pure, Except.ok.injEq, Rule.mk.injEq]
      rw [← Array.toList_inj]

/-! ### The effect of a step -/

/-- Tells that what a step would add is there. -/
def Knows (b : Builder) : Step → Prop
  | .nonterm _ name | .terminal _ name _ => b.contains name = true
  | .rule _ head body => ∃ rule ∈ b.seen, b.resolveRule head body = .ok rule

/-- Tells that a step is in error, and why. -/
def Rejects (b : Builder) : Step → GrammarError → Prop
  | .nonterm quiet name, e =>
    quiet = false ∧ b.contains name = true ∧ e = .duplicateSymbol name
  | .terminal quiet name t, e =>
    quiet = false ∧ b.contains name = true ∧ e = .duplicateSymbol name ∨
      b.contains name = false ∧ t.isVacuous = true ∧ e = .emptyTerminal name
  | .rule quiet head body, e =>
    b.resolveRule head body = .error e ∨
      quiet = false ∧ (∃ rule ∈ b.seen, b.resolveRule head body = .ok rule) ∧
        e = .duplicateRule (Grammar.ruleLine head body)

/-- What a step can do to a builder. -/
inductive Effect (b : Builder) : Step → Builder → Prop
  | nonterm {quiet : Bool} {name : String} (hnew : b.contains name = false) :
    Effect b (.nonterm quiet name)
      { b with
        symbols := b.symbols.insert name (.nonterm b.nonterms.size)
        nonterms := b.nonterms.push name }
  | terminal {quiet : Bool} {name : String} {t : Terminal} (hnew : b.contains name = false)
      (ht : t.isVacuous = false) :
    Effect b (.terminal quiet name t) { b with symbols := b.symbols.insert name (.terminal t) }
  | rule {quiet : Bool} {head : String} {body : List String} {rule : Rule} (hnew : rule ∉ b.seen)
      (hrule : b.resolveRule head body = .ok rule) :
    Effect b (.rule quiet head body)
      { b with rules := b.rules.push rule, seen := b.seen.insert rule }
  | known {step : Step} (h : b.Knows step) (hquiet : step.isQuiet = true) : Effect b step b
  | rejected {step : Step} {e : GrammarError} (h : b.Rejects step e) : Effect b step (b.fail e)

theorem effect_apply (b : Builder) (step : Step) : b.Effect step (b.apply step) := by
  cases step with
  | nonterm quiet name =>
    rw [apply, addNonterm]
    cases hknown : b.contains name with
    | false => exact .nonterm hknown
    | true =>
      cases quiet with
      | true => exact .known hknown rfl
      | false => exact .rejected ⟨rfl, hknown, rfl⟩
  | terminal quiet name t =>
    rw [apply, addTerminal]
    cases hknown : b.contains name with
    | false =>
      cases ht : t.isVacuous with
      | false => exact .terminal hknown ht
      | true => exact .rejected (Or.inr ⟨hknown, ht, rfl⟩)
    | true =>
      cases quiet with
      | true => exact .known hknown rfl
      | false => exact .rejected (Or.inl ⟨rfl, hknown, rfl⟩)
  | rule quiet head body =>
    rw [apply, addRule]
    cases hrule : b.resolveRule head body with
    | error e => exact .rejected (Or.inl hrule)
    | ok rule =>
      by_cases hseen : rule ∈ b.seen
      · -- The rule is looked for by its symbols, so other names for them make no new rule.
        have hknown : ∃ rule ∈ b.seen, b.resolveRule head body = .ok rule := ⟨rule, hseen, hrule⟩
        rw [← Std.HashSet.contains_iff_mem] at hseen
        simp only [hseen, if_true]
        cases quiet with
        | true => exact .known hknown rfl
        | false => exact .rejected (Or.inr ⟨rfl, hknown, rfl⟩)
      · have hnew : b.seen.contains rule = false := by
          rw [← Bool.not_eq_true, Std.HashSet.contains_iff_mem]
          exact hseen
        simp only [hnew, Bool.false_eq_true, if_false]
        exact .rule hseen hrule

/-! ### Entries stay -/

@[simp]
theorem symbols_fail (b : Builder) (e : GrammarError) : (b.fail e).symbols = b.symbols := rfl

@[simp]
theorem nonterms_fail (b : Builder) (e : GrammarError) : (b.fail e).nonterms = b.nonterms := rfl

@[simp]
theorem rules_fail (b : Builder) (e : GrammarError) : (b.fail e).rules = b.rules := rfl

@[simp]
theorem seen_fail (b : Builder) (e : GrammarError) : (b.fail e).seen = b.seen := rfl

theorem error_fail_ne_none (b : Builder) (e : GrammarError) : (b.fail e).error ≠ none := by
  cases herror : b.error <;> simp [fail, herror]

/-- A new name does not touch the others. -/
theorem getElem?_insert_of_new {b : Builder} {name name' : String} {symbol symbol' : Symbol}
    (hnew : b.contains name = false) (h : b.symbols[name']? = some symbol') :
    (b.symbols.insert name symbol)[name']? = some symbol' := by
  rw [contains_eq_false_iff] at hnew
  rw [Std.HashMap.getElem?_insert]
  split
  · rename_i heq
    rw [beq_iff_eq] at heq
    subst heq
    rw [hnew] at h
    cases h
  · exact h

namespace Effect

variable {b b' : Builder} {step : Step}

theorem symbols {name : String} {symbol : Symbol} (heffect : b.Effect step b')
    (h : b.symbols[name]? = some symbol) : b'.symbols[name]? = some symbol := by
  cases heffect with
  | nonterm hnew => exact getElem?_insert_of_new hnew h
  | terminal hnew _ => exact getElem?_insert_of_new hnew h
  | rule => exact h
  | known => exact h
  | rejected => exact h

theorem resolveRule {head : String} {body : List String} {rule : Rule}
    (heffect : b.Effect step b') (h : b.resolveRule head body = .ok rule) :
    b'.resolveRule head body = .ok rule := by
  rw [resolveRule_eq_ok_iff] at h ⊢
  exact ⟨heffect.symbols h.1, h.2.imp fun _ _ => heffect.symbols⟩

theorem rules {rule : Rule} (heffect : b.Effect step b') (h : rule ∈ b.rules) :
    rule ∈ b'.rules := by
  cases heffect with
  | rule => exact Array.mem_push_of_mem _ h
  | nonterm | terminal | known | rejected => exact h

theorem error (heffect : b.Effect step b') (h : b'.error = none) : b.error = none := by
  cases heffect with
  | rejected => exact absurd h (error_fail_ne_none _ _)
  | nonterm | terminal | rule | known => exact h

/-- A symbol in the table was there before, or the step registers it. -/
theorem symbols_cases {name : String} {symbol : Symbol} (heffect : b.Effect step b')
    (h : b'.symbols[name]? = some symbol) :
    b.symbols[name]? = some symbol ∨
      (∃ quiet, step = .nonterm quiet name ∧ symbol = .nonterm b.nonterms.size) ∨
        ∃ quiet t, step = .terminal quiet name t ∧ symbol = .terminal t ∧ t.isVacuous = false := by
  cases heffect with
  | @nonterm quiet name' hnew =>
    rw [Std.HashMap.getElem?_insert] at h
    split at h
    · rename_i heq
      rw [beq_iff_eq] at heq
      cases h
      exact Or.inr (Or.inl ⟨quiet, by rw [heq], rfl⟩)
    · exact Or.inl h
  | @terminal quiet name' t hnew ht =>
    rw [Std.HashMap.getElem?_insert] at h
    split at h
    · rename_i heq
      rw [beq_iff_eq] at heq
      cases h
      exact Or.inr (Or.inr ⟨quiet, t, by rw [heq], rfl, ht⟩)
    · exact Or.inl h
  | rule | known | rejected => exact Or.inl h

/-- A rule in the list was there before, or the step adds it. -/
theorem rules_cases {rule : Rule} (heffect : b.Effect step b') (h : rule ∈ b'.rules) :
    rule ∈ b.rules ∨
      ∃ quiet head body, step = .rule quiet head body ∧ b.resolveRule head body = .ok rule := by
  cases heffect with
  | rule hnew hrule =>
    rcases Array.mem_push.1 h with h | rfl
    · exact Or.inl h
    · exact Or.inr ⟨_, _, _, rfl, hrule⟩
  | nonterm | terminal | known | rejected => exact Or.inl h

end Effect

theorem run_concat (steps : List Step) (step : Step) :
    run (steps ++ [step]) = (run steps).apply step := by
  rw [run, List.foldl_concat, run]

theorem effect_run_concat (steps : List Step) (step : Step) :
    (run steps).Effect step (run (steps ++ [step])) := by
  rw [run_concat]
  exact effect_apply _ _

/-! ### The tables agree -/

/-- The tables of a builder agree with each other. -/
structure Consistent (b : Builder) : Prop where
  /-- Non-terminals are registered under their names and numbers, and no others. -/
  nonterm_iff : ∀ (name : String) (id : Nat),
    b.symbols[name]? = some (.nonterm id) ↔ b.nonterms[id]? = some name
  terminal : ∀ (name : String) (t : Terminal),
    b.symbols[name]? = some (.terminal t) → t.isVacuous = false
  /-- The head of a rule is registered as a non-terminal. -/
  head : ∀ rule ∈ b.rules, ∃ name : String, b.symbols[name]? = some (.nonterm rule.head)
  /-- The symbols in the body of a rule are registered. -/
  body : ∀ rule ∈ b.rules, ∀ symbol ∈ rule.body, ∃ name : String, b.symbols[name]? = some symbol
  seen_iff : ∀ rule, rule ∈ b.seen ↔ rule ∈ b.rules
  nodup : b.rules.toList.Nodup

theorem consistent_empty : empty.Consistent where
  nonterm_iff := by simp [empty]
  terminal := by simp [empty]
  head := by simp [empty]
  body := by simp [empty]
  seen_iff := by simp [empty]
  nodup := by simp [empty]

/-- The symbols of a rule are those under which its names are registered. -/
theorem exists_name_of_mem_body {b : Builder} {head : String} {body : List String} {rule : Rule}
    {symbol : Symbol} (h : b.resolveRule head body = .ok rule) (hsymbol : symbol ∈ rule.body) :
    ∃ name : String, b.symbols[name]? = some symbol := by
  obtain ⟨-, hall⟩ := resolveRule_eq_ok_iff.1 h
  rw [← Array.mem_toList_iff] at hsymbol
  obtain ⟨i, hi, rfl⟩ := List.mem_iff_getElem.1 hsymbol
  have hbody : i < body.length := by rwa [hall.length_eq]
  exact ⟨body[i], List.forall₂_iff_get.1 hall |>.2 i hbody hi⟩

theorem Consistent.effect {b b' : Builder} {step : Step} (h : b.Consistent)
    (heffect : b.Effect step b') : b'.Consistent where
  nonterm_iff name id := by
    cases heffect with
    | @nonterm quiet name' hnew =>
      rw [contains_eq_false_iff] at hnew
      rw [Std.HashMap.getElem?_insert, Array.getElem?_push]
      by_cases hname : name' = name
      · subst hname
        -- The name is new, so no earlier number may belong to it.
        have hnone (id : Nat) : b.nonterms[id]? ≠ some name' := by
          intro hsome
          rw [← h.nonterm_iff, hnew] at hsome
          cases hsome
        by_cases hid : id = b.nonterms.size
        · simp [hid]
        · simp [hid, hnone, Ne.symm hid]
      · have hold := h.nonterm_iff name id
        by_cases hid : id = b.nonterms.size
        · simpa [hid, hname] using hold
        · simpa [hid, hname] using hold
    | @terminal quiet name' t hnew _ =>
      -- The new name is that of a terminal, and it was not the name of a non-terminal before.
      rw [contains_eq_false_iff] at hnew
      rw [Std.HashMap.getElem?_insert, ← h.nonterm_iff]
      split
      · rename_i heq
        rw [beq_iff_eq] at heq
        subst heq
        simp [hnew]
      · rfl
    | rule | known | rejected => exact h.nonterm_iff name id
  terminal name t ht := by
    rcases heffect.symbols_cases ht with ht | ⟨quiet, -, ht⟩ | ⟨quiet, t', -, ht, hvacuous⟩
    · exact h.terminal name t ht
    · cases ht
    · cases ht
      exact hvacuous
  head rule hrule := by
    rcases heffect.rules_cases hrule with hrule | ⟨quiet, head, body, rfl, hrule⟩
    · obtain ⟨name, hname⟩ := h.head rule hrule
      exact ⟨name, heffect.symbols hname⟩
    · exact ⟨head, heffect.symbols (resolveRule_eq_ok_iff.1 hrule).1⟩
  body rule hrule symbol hsymbol := by
    rcases heffect.rules_cases hrule with hrule | ⟨quiet, head, body, rfl, hrule⟩
    · obtain ⟨name, hname⟩ := h.body rule hrule symbol hsymbol
      exact ⟨name, heffect.symbols hname⟩
    · obtain ⟨name, hname⟩ := exists_name_of_mem_body hrule hsymbol
      exact ⟨name, heffect.symbols hname⟩
  seen_iff rule := by
    cases heffect with
    | rule =>
      rw [Std.HashSet.mem_insert, Array.mem_push, h.seen_iff, beq_iff_eq, or_comm, eq_comm]
    | nonterm | terminal | known | rejected => exact h.seen_iff rule
  nodup := by
    cases heffect with
    | rule hnew =>
      rw [h.seen_iff] at hnew
      rw [Array.toList_push, List.nodup_append]
      refine ⟨h.nodup, List.pairwise_singleton _ _, ?_⟩
      rintro rule hrule _ hmem rfl
      rw [List.mem_singleton] at hmem
      subst hmem
      exact hnew (Array.mem_toList_iff.1 hrule)
    | nonterm | terminal | known | rejected => exact h.nodup

theorem consistent_run (steps : List Step) : (run steps).Consistent := by
  induction steps using List.reverseRecOn with
  | nil => exact consistent_empty
  | append_singleton steps step ih => exact ih.effect (effect_run_concat steps step)

/-! ### Steps that were not rejected -/

/-- Where there is no error, a name that was to be registered is. -/
theorem exists_symbol_of_mem {steps : List Step} {step : Step} {name : String}
    (herror : (run steps).error = none) (h : step ∈ steps)
    (hname : step.registers? = some name) :
    ∃ symbol, (run steps).symbols[name]? = some symbol := by
  induction steps using List.reverseRecOn with
  | nil => cases h
  | append_singleton steps last ih =>
    have heffect := effect_run_concat steps last
    rcases List.mem_append.1 h with h | h
    · obtain ⟨symbol, hsymbol⟩ := ih (heffect.error herror) h
      exact ⟨symbol, heffect.symbols hsymbol⟩
    · rw [List.mem_singleton] at h
      subst h
      -- The builder behind the step has to be a variable for its effect to be taken apart.
      generalize run (steps ++ [step]) = b' at herror heffect ⊢
      cases heffect with
      | nonterm | terminal =>
        cases hname
        exact ⟨_, Std.HashMap.getElem?_insert_self⟩
      | rule => cases hname
      | known hknown =>
        cases step with
        | nonterm quiet name' =>
          cases hname
          exact contains_eq_true_iff.1 hknown
        | terminal quiet name' t =>
          cases hname
          exact contains_eq_true_iff.1 hknown
        | rule quiet head body => cases hname
      | rejected => exact absurd herror (error_fail_ne_none _ _)

/-- Where there is no error, a rule that was to be added is there. -/
theorem exists_rule_of_mem {steps : List Step} {quiet : Bool} {head : String}
    {body : List String} (herror : (run steps).error = none)
    (h : Step.rule quiet head body ∈ steps) :
    ∃ rule ∈ (run steps).rules, (run steps).resolveRule head body = .ok rule := by
  induction steps using List.reverseRecOn with
  | nil => cases h
  | append_singleton steps step ih =>
    have heffect := effect_run_concat steps step
    rcases List.mem_append.1 h with h | h
    · obtain ⟨rule, hrule, hresolve⟩ := ih (heffect.error herror) h
      exact ⟨rule, heffect.rules hrule, heffect.resolveRule hresolve⟩
    · rw [List.mem_singleton] at h
      subst h
      have hconsistent := consistent_run steps
      generalize run (steps ++ [.rule quiet head body]) = b' at herror heffect ⊢
      cases heffect with
      | rule hnew hrule =>
        -- Adding a rule registers no name, so it resolves as before.
        have hadd := @Effect.rule (run steps) quiet head body _ hnew hrule
        exact ⟨_, Array.mem_push_self, hadd.resolveRule hrule⟩
      | known hknown =>
        obtain ⟨rule, hseen, hrule⟩ := hknown
        exact ⟨rule, (hconsistent.seen_iff rule).1 hseen, hrule⟩
      | rejected => exact absurd herror (error_fail_ne_none _ _)

/-- Every rule was added by a step. -/
theorem exists_step_of_mem_rules {steps : List Step} {rule : Rule} (h : rule ∈ (run steps).rules) :
    ∃ quiet head body, Step.rule quiet head body ∈ steps ∧
      (run steps).resolveRule head body = .ok rule := by
  induction steps using List.reverseRecOn with
  | nil => simp [run, empty] at h
  | append_singleton steps step ih =>
    have heffect := effect_run_concat steps step
    rcases heffect.rules_cases h with h | ⟨quiet, head, body, rfl, hrule⟩
    · obtain ⟨quiet, head, body, hmem, hrule⟩ := ih h
      exact ⟨quiet, head, body, List.mem_append_left _ hmem, heffect.resolveRule hrule⟩
    · exact ⟨quiet, head, body, List.mem_append_right _ (List.mem_singleton_self _),
        heffect.resolveRule hrule⟩

/-- Every non-terminal was registered by a step. -/
theorem exists_step_of_symbols_nonterm {steps : List Step} {name : String} {id : Nat}
    (h : (run steps).symbols[name]? = some (.nonterm id)) :
    ∃ quiet, Step.nonterm quiet name ∈ steps := by
  induction steps using List.reverseRecOn with
  | nil => simp [run, empty] at h
  | append_singleton steps step ih =>
    rcases (effect_run_concat steps step).symbols_cases h with
      h | ⟨quiet, rfl, -⟩ | ⟨_, _, _, hsymbol, _⟩
    · obtain ⟨quiet, hmem⟩ := ih h
      exact ⟨quiet, List.mem_append_left _ hmem⟩
    · exact ⟨quiet, List.mem_append_right _ (List.mem_singleton_self _)⟩
    · cases hsymbol

/-- Every terminal was registered by a step. -/
theorem exists_step_of_symbols_terminal {steps : List Step} {name : String} {t : Terminal}
    (h : (run steps).symbols[name]? = some (.terminal t)) :
    ∃ quiet, Step.terminal quiet name t ∈ steps := by
  induction steps using List.reverseRecOn with
  | nil => simp [run, empty] at h
  | append_singleton steps step ih =>
    rcases (effect_run_concat steps step).symbols_cases h with
      h | ⟨_, _, hsymbol⟩ | ⟨quiet, t', rfl, hsymbol, -⟩
    · obtain ⟨quiet, hmem⟩ := ih h
      exact ⟨quiet, List.mem_append_left _ hmem⟩
    · cases hsymbol
    · cases hsymbol
      exact ⟨quiet, List.mem_append_right _ (List.mem_singleton_self _)⟩

end Builder

end Earley
