/-
  Steps that a builder accepts.

  A quiet step is accepted if everything that it needs is registered by the steps before it
  (`Step.SupportedBy`). So steps that support each other in their order leave no error
  (`error_run_eq_none`), provided that the names of terminals and of non-terminals keep apart. If
  moreover every non-terminal gets a rule, there is a grammar for each of them as the start symbol
  (`Grammar.exists_build`).
-/
import Earley.Proofs.Grammar.Valuation
import Earley.Proofs.Grammar.WellFormed

namespace Earley

namespace Step

/-- Tells that one of some steps registers a name. -/
def Registers (steps : List Step) (name : String) : Prop :=
  ∃ step ∈ steps, step.registers? = some name

/-- Tells that a step is quiet and that the steps before it register all that it needs. -/
def SupportedBy (earlier : List Step) : Step → Prop
  | .nonterm quiet _ => quiet = true
  | .terminal quiet _ t => quiet = true ∧ t.isVacuous = false
  | .rule quiet head body =>
    quiet = true ∧ (∃ q, nonterm q head ∈ earlier) ∧ ∀ name ∈ body, Registers earlier name

/-- Tells that each of some steps is supported by `earlier` and the steps between. -/
def Supported (earlier : List Step) : List Step → Prop
  | [] => True
  | step :: steps => step.SupportedBy earlier ∧ Supported (earlier ++ [step]) steps

/-- Tells that every non-terminal that is registered has a rule. -/
def Ruled (steps : List Step) : Prop :=
  ∀ quiet name, nonterm quiet name ∈ steps → ∃ quiet' body, rule quiet' name body ∈ steps

variable {earlier earlier' steps steps' : List Step} {step : Step} {name : String}

theorem Registers.mono (hsubset : earlier ⊆ earlier') (h : Registers earlier name) :
    Registers earlier' name := by
  obtain ⟨step, hmem, hname⟩ := h
  exact ⟨step, hsubset hmem, hname⟩

theorem registers_nonterm {quiet : Bool} (h : nonterm quiet name ∈ steps) :
    Registers steps name := ⟨_, h, rfl⟩

theorem SupportedBy.mono (hsubset : earlier ⊆ earlier') (h : step.SupportedBy earlier) :
    step.SupportedBy earlier' := by
  cases step with
  | nonterm | terminal => exact h
  | rule quiet head body =>
    obtain ⟨hquiet, ⟨q, hhead⟩, hbody⟩ := h
    exact ⟨hquiet, ⟨q, hsubset hhead⟩, fun name hname => (hbody name hname).mono hsubset⟩

theorem Supported.mono (hsubset : earlier ⊆ earlier') (h : Supported earlier steps) :
    Supported earlier' steps := by
  induction steps generalizing earlier earlier' with
  | nil => trivial
  | cons step steps ih =>
    have hsubset' : earlier ++ [step] ⊆ earlier' ++ [step] :=
      List.append_subset.2
        ⟨List.subset_append_of_subset_left _ hsubset, List.subset_append_right _ _⟩
    exact ⟨h.1.mono hsubset, ih hsubset' h.2⟩

theorem supported_append :
    Supported earlier (steps ++ steps') ↔
      Supported earlier steps ∧ Supported (earlier ++ steps) steps' := by
  induction steps generalizing earlier with
  | nil => simp [Supported]
  | cons step steps ih => simp [Supported, ih, and_assoc]

theorem supported_singleton : Supported earlier [step] ↔ step.SupportedBy earlier := by
  simp [Supported]

theorem supported_flatMap {α : Type*} {f : α → List Step} {xs : List α}
    (h : ∀ x ∈ xs, Supported earlier (f x)) : Supported earlier (xs.flatMap f) := by
  induction xs generalizing earlier with
  | nil => trivial
  | cons x xs ih =>
    obtain ⟨hfirst, hrest⟩ := List.forall_mem_cons.1 h
    rw [List.flatMap_cons]
    have hlater : ∀ y ∈ xs, Supported (earlier ++ f x) (f y) :=
      fun y hy => (hrest y hy).mono (List.subset_append_left _ _)
    exact supported_append.2 ⟨hfirst, ih hlater⟩

theorem ruled_rule (quiet : Bool) (head : String) (body : List String) :
    Ruled [rule quiet head body] := by
  intro _ _ h
  cases List.mem_singleton.1 h

theorem ruled_terminal (quiet : Bool) (name : String) (t : Terminal) :
    Ruled [terminal quiet name t] := by
  intro _ _ h
  cases List.mem_singleton.1 h

/-- A non-terminal goes in front of its rules. -/
theorem Ruled.cons {quiet quiet' : Bool} {body : List String} (h : Ruled steps)
    (hrule : rule quiet' name body ∈ steps) : Ruled (nonterm quiet name :: steps) := by
  intro q n hmem
  rcases List.mem_cons.1 hmem with heq | hmem
  · cases heq
    exact ⟨quiet', body, List.mem_cons_of_mem _ hrule⟩
  · obtain ⟨q', body', hrule'⟩ := h q n hmem
    exact ⟨q', body', List.mem_cons_of_mem _ hrule'⟩

theorem Ruled.append (h : Ruled steps) (h' : Ruled steps') : Ruled (steps ++ steps') := by
  intro quiet name hmem
  rcases List.mem_append.1 hmem with hmem | hmem
  · obtain ⟨quiet', body, hrule⟩ := h quiet name hmem
    exact ⟨quiet', body, List.mem_append_left _ hrule⟩
  · obtain ⟨quiet', body, hrule⟩ := h' quiet name hmem
    exact ⟨quiet', body, List.mem_append_right _ hrule⟩

end Step

namespace Builder

variable {steps : List Step}

/-- Names that are registered resolve. -/
theorem exists_resolve {names : List String} (herror : (run steps).error = none)
    (h : ∀ name ∈ names, Step.Registers steps name) :
    ∃ symbols, (run steps).resolve names = .ok symbols := by
  have hsymbol : ∀ name ∈ names, ∃ symbol, (run steps).symbols[name]? = some symbol := by
    intro name hname
    obtain ⟨step, hmem, hregisters⟩ := h name hname
    exact exists_symbol_of_mem herror hmem hregisters
  induction names with
  | nil => exact ⟨[], rfl⟩
  | cons name names ih =>
    obtain ⟨⟨symbol, hfirst⟩, hrest⟩ := List.forall_mem_cons.1 hsymbol
    obtain ⟨symbols, hsymbols⟩ := ih (fun n hn => h n (List.mem_cons_of_mem _ hn)) hrest
    exact ⟨symbol :: symbols, by simp [resolve, hfirst, hsymbols, Except.map]⟩

/-- Steps that support each other leave no error. -/
theorem error_run_eq_none (h : Step.Supported [] steps)
    (hapart : ∀ step ∈ steps, step.KeepsApart Terminal.display) : (run steps).error = none := by
  induction steps using List.reverseRecOn with
  | nil => rfl
  | append_singleton steps step ih =>
    obtain ⟨hsteps, hstep⟩ := Step.supported_append.1 h
    rw [List.nil_append, Step.supported_singleton] at hstep
    obtain ⟨hfront, -⟩ := List.forall_mem_append.1 hapart
    have herror := ih hsteps hfront
    have heffect := effect_run_concat steps step
    generalize run (steps ++ [step]) = b' at heffect ⊢
    cases heffect with
    | nonterm | terminal | rule | known => exact herror
    | @rejected _ e hrejects =>
      -- What is supported is not rejected.
      exfalso
      cases step with
      | nonterm quiet name =>
        obtain ⟨hquiet, -⟩ := hrejects
        cases hquiet.symm.trans hstep
      | terminal quiet name t =>
        rcases hrejects with ⟨hquiet, -⟩ | ⟨-, hvacuous, -⟩
        · cases hquiet.symm.trans hstep.1
        · cases hvacuous.symm.trans hstep.2
      | rule quiet head body =>
        obtain ⟨hquiet, ⟨q, hhead⟩, hbody⟩ := hstep
        obtain ⟨id, hid⟩ := exists_id_of_mem_nonterm herror hfront hhead
        obtain ⟨symbols, hsymbols⟩ := exists_resolve herror hbody
        have hrule : (run steps).resolveRule head body = .ok ⟨id, symbols.toArray⟩ :=
          resolveRule_eq_ok_iff.2 ⟨hid, resolve_eq_ok_iff.1 hsymbols⟩
        rcases hrejects with hrejects | ⟨hloud, -⟩
        · cases hrule.symm.trans hrejects
        · cases hloud.symm.trans hquiet

/-- The non-terminals that a builder uses have rules, if all that are registered have. -/
theorem groupByHead_ne_nil (herror : (run steps).error = none) (hruled : Step.Ruled steps)
    {name : String} {id : Nat} (hid : (run steps).symbols[name]? = some (.nonterm id)) :
    (groupByHead (run steps).nonterms.size (run steps).rules).getD id [] ≠ [] := by
  have hconsistent := consistent_run steps
  obtain ⟨quiet, hstep⟩ := exists_step_of_symbols_nonterm hid
  obtain ⟨quiet', body, hrulestep⟩ := hruled quiet name hstep
  obtain ⟨rule, hmem, hresolve⟩ := exists_rule_of_mem herror hrulestep
  have hhead := (resolveRule_eq_ok_iff.1 hresolve).1
  rw [hid, Option.some.injEq, Symbol.nonterm.injEq] at hhead
  obtain ⟨index, hindex, hget⟩ := Array.mem_iff_getElem.1 hmem
  rw [getD_groupByHead fun index hindex => head_getD_lt hconsistent hindex]
  -- The rule that was added is in the group of its head.
  apply List.ne_nil_of_mem (a := index)
  rw [List.mem_filter, List.mem_range]
  refine ⟨hindex, ?_⟩
  rw [Array.getD_eq_getD_getElem?, Array.getElem?_eq_getElem hindex, Option.getD_some, hget]
  simpa using hhead.symm

end Builder

/-- Steps that support each other and give rules to all non-terminals put a grammar together. -/
theorem Grammar.exists_build {steps : List Step} {quiet : Bool} {start : String}
    (hsupported : Step.Supported [] steps)
    (hapart : ∀ step ∈ steps, step.KeepsApart Terminal.display)
    (hruled : Step.Ruled steps) (hstart : .nonterm quiet start ∈ steps) :
    ∃ g, build steps start = .ok g := by
  have herror := Builder.error_run_eq_none hsupported hapart
  obtain ⟨id, hid⟩ := Builder.exists_id_of_mem_nonterm herror hapart hstart
  refine ⟨⟨id, _, _, _, _, _⟩,
    Builder.finish_eq_ok_iff.2 ⟨herror, hid, fun id' hused => ?_, rfl, rfl, rfl, rfl, rfl⟩⟩
  have hregistered : ∃ name : String,
      (Builder.run steps).symbols[name]? = some (.nonterm id') := by
    rcases List.mem_cons.1 hused with rfl | hused
    · exact ⟨start, hid⟩
    · obtain ⟨rule, hrule, hused⟩ := List.mem_flatMap.1 hused
      obtain ⟨symbol, hsymbol, hused⟩ := List.mem_filterMap.1 hused
      cases symbol with
      | terminal t => cases hused
      | nonterm id =>
        cases hused
        exact (Builder.consistent_run steps).body rule (Array.mem_toList_iff.1 hrule) _
          (Array.mem_toList_iff.1 hsymbol)
  obtain ⟨name, hname⟩ := hregistered
  exact Builder.groupByHead_ne_nil herror hruled hname

end Earley
