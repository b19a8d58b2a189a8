/-
  The order in which a builder keeps names and rules.

  A table of a builder holds each entry in the place of the first step that asks for it. So the
  non-terminals are the names of the steps for non-terminals, and the rules are those of the rule
  steps, both without the repeats (`toList_nonterms_run`, `toList_rules_run`). Of a grammar that is
  built from the steps this gives the rules of each non-terminal, in order (`bodies_build`).
-/
import Earley.Proofs.Grammar.Valuation
import Earley.Proofs.Grammar.WellFormed

namespace Earley

/-! ### Lists without repeats -/

section EraseDups

variable {α β : Type} [BEq α] [LawfulBEq α] [BEq β] [LawfulBEq β] {xs : List α}

theorem eraseDups_concat (xs : List α) (x : α) :
    (xs ++ [x]).eraseDups = xs.eraseDups ++ if x ∈ xs then [] else [x] := by
  rw [List.eraseDups_append, List.removeAll, List.filter_singleton]
  by_cases hx : x ∈ xs <;> simp [hx, List.eraseDups_cons]

theorem eraseDups_eq_self (h : xs.Nodup) : xs.eraseDups = xs := by
  induction xs using List.reverseRecOn with
  | nil => rfl
  | append_singleton xs x ih =>
    obtain ⟨hxs, -, hx⟩ := List.nodup_append.1 h
    have hnew : x ∉ xs := fun hmem => hx x hmem x (List.mem_singleton_self x) rfl
    rw [eraseDups_concat, ih hxs, if_neg hnew]

theorem filter_eraseDups (p : α → Bool) (xs : List α) :
    xs.eraseDups.filter p = (xs.filter p).eraseDups := by
  induction xs using List.reverseRecOn with
  | nil => rfl
  | append_singleton xs x ih =>
    rw [eraseDups_concat, List.filter_append, List.filter_append, ih, List.filter_singleton]
    cases hp : p x with
    | false =>
      have hnone : (if x ∈ xs then [] else [x]).filter p = [] := by
        split <;> simp [hp]
      rw [hnone]
      simp
    | true =>
      rw [cond_true, eraseDups_concat]
      simp only [List.mem_filter, hp, and_true]
      split <;> simp [hp]

theorem map_eraseDups {f : α → β} {xs : List α}
    (hf : ∀ x ∈ xs, ∀ y ∈ xs, f x = f y → x = y) :
    xs.eraseDups.map f = (xs.map f).eraseDups := by
  induction xs using List.reverseRecOn with
  | nil => rfl
  | append_singleton xs x ih =>
    have hold : ∀ y ∈ xs, y ∈ xs ++ [x] := fun y hy => List.mem_append_left _ hy
    have hmem : f x ∈ xs.map f ↔ x ∈ xs := by
      constructor
      · intro h
        obtain ⟨y, hy, heq⟩ := List.mem_map.1 h
        rwa [← hf y (hold y hy) x (List.mem_append_right _ (List.mem_singleton_self x)) heq]
      · exact List.mem_map_of_mem
    have ih := ih fun y hy z hz => hf y (hold y hy) z (hold z hz)
    rw [eraseDups_concat, List.map_append, ih, List.map_append, List.map_singleton,
      eraseDups_concat]
    simp only [hmem]
    split <;> rfl

end EraseDups

/-! ### Names and rules of steps -/

namespace Step

/-- The name of a step for a non-terminal. -/
def nonterm? : Step → Option String
  | nonterm _ name => some name
  | terminal _ _ _ | rule _ _ _ => none

/-- The names of the steps for non-terminals. -/
def nonterms (steps : List Step) : List String := steps.filterMap nonterm?

/-- The body of a step for a rule of `head`. -/
def body? (head : String) : Step → Option (List String)
  | rule _ head' body => if head' = head then some body else none
  | nonterm _ _ | terminal _ _ _ => none

/-- The bodies of the steps for rules of `head`. -/
def bodies (head : String) (steps : List Step) : List (List String) := steps.filterMap (body? head)

theorem nonterms_append (steps steps' : List Step) :
    nonterms (steps ++ steps') = nonterms steps ++ nonterms steps' :=
  List.filterMap_append

theorem bodies_append (head : String) (steps steps' : List Step) :
    bodies head (steps ++ steps') = bodies head steps ++ bodies head steps' :=
  List.filterMap_append

theorem exists_of_mem_bodies {head : String} {steps : List Step} {body : List String}
    (h : body ∈ bodies head steps) : ∃ quiet, rule quiet head body ∈ steps := by
  obtain ⟨step, hstep, hbody⟩ := List.mem_filterMap.1 h
  cases step with
  | nonterm | terminal => cases hbody
  | rule quiet head' body' =>
    rw [body?] at hbody
    split at hbody
    · next hhead =>
      cases hbody
      exact ⟨quiet, hhead ▸ hstep⟩
    · cases hbody

end Step

namespace Builder

variable {steps : List Step} {name : String}

/-! ### The order of the non-terminals -/

theorem Consistent.mem_nonterms_iff {b : Builder} (h : b.Consistent) :
    name ∈ b.nonterms.toList ↔ ∃ id, b.symbols[name]? = some (.nonterm id) := by
  simp only [h.nonterm_iff, List.mem_iff_getElem?, Array.getElem?_toList]

/-- A name that is kept apart from terminals is registered just if a non-terminal has it. -/
theorem contains_run_iff {form : Terminal → String} (hapart : ∀ step ∈ steps, step.KeepsApart form)
    (hname : ∀ t, name ≠ form t) :
    (run steps).contains name = true ↔ name ∈ (run steps).nonterms.toList := by
  rw [contains_eq_true_iff, (consistent_run steps).mem_nonterms_iff]
  constructor
  · rintro ⟨symbol, hsymbol⟩
    cases symbol with
    | nonterm id => exact ⟨id, hsymbol⟩
    | terminal t =>
      obtain ⟨_, hstep⟩ := exists_step_of_symbols_terminal hsymbol
      exact absurd (hapart _ hstep) (hname t)
  · exact fun ⟨id, hsymbol⟩ => ⟨_, hsymbol⟩

theorem nonterms_addNonterm (b : Builder) (quiet : Bool) (name : String) :
    (b.addNonterm quiet name).nonterms =
      if b.contains name then b.nonterms else b.nonterms.push name := by
  unfold addNonterm
  split
  · split <;> rfl
  · rfl

theorem nonterms_addTerminal (b : Builder) (quiet : Bool) (name : String) (t : Terminal) :
    (b.addTerminal quiet name t).nonterms = b.nonterms := by
  unfold addTerminal
  split
  · split <;> rfl
  · split <;> rfl

theorem nonterms_addRule (b : Builder) (quiet : Bool) (head : String) (body : List String) :
    (b.addRule quiet head body).nonterms = b.nonterms := by
  unfold addRule
  split
  · rfl
  · split
    · split <;> rfl
    · rfl

/-- The non-terminals stand in the order of the first steps for them. -/
theorem toList_nonterms_run {form : Terminal → String}
    (hapart : ∀ step ∈ steps, step.KeepsApart form) :
    (run steps).nonterms.toList = (Step.nonterms steps).eraseDups := by
  induction steps using List.reverseRecOn with
  | nil => rfl
  | append_singleton steps step ih =>
    obtain ⟨hsteps, hstep⟩ := List.forall_mem_append.1 hapart
    have ih := ih hsteps
    rw [run_concat, Step.nonterms_append]
    cases step with
    | nonterm quiet name =>
      have hmem := contains_run_iff hsteps (hstep _ (List.mem_singleton_self _))
      have hlast : Step.nonterms [.nonterm quiet name] = [name] := rfl
      rw [ih, List.mem_eraseDups] at hmem
      rw [hlast, eraseDups_concat, apply, nonterms_addNonterm]
      simp only [hmem]
      split <;> simp [ih]
    | terminal quiet name t =>
      have hlast : Step.nonterms [.terminal quiet name t] = [] := rfl
      rw [hlast, List.append_nil, apply, nonterms_addTerminal, ih]
    | rule quiet head body =>
      have hlast : Step.nonterms [.rule quiet head body] = [] := rfl
      rw [hlast, List.append_nil, apply, nonterms_addRule, ih]

/-! ### The order of the rules -/

/-- The rule of a step, if its names are registered. -/
def rule? (b : Builder) : Step → Option Rule
  | .rule _ head body => (b.resolveRule head body).toOption
  | .nonterm _ _ | .terminal _ _ _ => none

theorem rule?_of_resolveRule {b : Builder} {head : String} {body : List String} {rule : Rule}
    (h : b.resolveRule head body = .ok rule) (quiet : Bool) :
    b.rule? (.rule quiet head body) = some rule := by
  rw [rule?, h]
  rfl

/-- The rules stand in the order of the first steps for them. -/
theorem toList_rules_run (herror : (run steps).error = none) :
    (run steps).rules.toList = (steps.filterMap (run steps).rule?).eraseDups := by
  induction steps using List.reverseRecOn with
  | nil => rfl
  | append_singleton steps step ih =>
    have heffect := effect_run_concat steps step
    have hbefore := heffect.error herror
    -- The rules of the steps before resolve as they did.
    have hsame : steps.filterMap (run (steps ++ [step])).rule? =
        steps.filterMap (run steps).rule? := by
      refine List.filterMap_congr fun step' hstep' => ?_
      cases step' with
      | nonterm | terminal => rfl
      | rule quiet head body =>
        obtain ⟨rule, -, hrule⟩ := exists_rule_of_mem hbefore hstep'
        rw [rule?_of_resolveRule hrule, rule?_of_resolveRule (heffect.resolveRule hrule)]
    have ih := ih hbefore
    have hmem (rule : Rule) : rule ∈ (run steps).seen ↔
        rule ∈ steps.filterMap (run steps).rule? := by
      rw [(consistent_run steps).seen_iff, ← Array.mem_toList_iff, ih, List.mem_eraseDups]
    rw [List.filterMap_append, hsame]
    generalize run (steps ++ [step]) = b' at heffect herror
    cases heffect with
    | nonterm | terminal =>
      rw [List.filterMap_cons_none rfl, List.filterMap_nil, List.append_nil]
      exact ih
    | @rule quiet head body rule hnew hrule =>
      have hadd := @Effect.rule (run steps) quiet head body _ hnew hrule
      rw [hmem] at hnew
      rw [List.filterMap_cons_some (rule?_of_resolveRule (hadd.resolveRule hrule) quiet),
        List.filterMap_nil, eraseDups_concat, if_neg hnew, Array.toList_push, ih]
    | known hknown =>
      cases step with
      | nonterm | terminal =>
        rw [List.filterMap_cons_none rfl, List.filterMap_nil, List.append_nil]
        exact ih
      | rule quiet head body =>
        obtain ⟨rule, hseen, hrule⟩ := hknown
        rw [hmem] at hseen
        rw [List.filterMap_cons_some (rule?_of_resolveRule hrule quiet), List.filterMap_nil,
          eraseDups_concat, if_pos hseen, List.append_nil]
        exact ih
    | rejected => exact absurd herror (error_fail_ne_none _ _)

/-! ### The rules of a non-terminal -/

/-- The symbol that is registered under a name. -/
def symbolOf (b : Builder) (name : String) : Symbol := (b.symbols[name]?).getD (.nonterm 0)

theorem symbolOf_eq {b : Builder} {symbol : Symbol} (h : b.symbols[name]? = some symbol) :
    b.symbolOf name = symbol := by
  rw [symbolOf, h, Option.getD_some]

theorem map_symbolOf_eq {b : Builder} {names : List String} {symbols : List Symbol}
    (h : List.Forall₂ (fun name symbol => b.symbols[name]? = some symbol) names symbols) :
    names.map b.symbolOf = symbols := by
  induction h with
  | nil => rfl
  | cons hname _ ih => rw [List.map_cons, symbolOf_eq hname, ih]

/-- Every name in a body that is registered has a symbol. -/
theorem exists_symbol_of_mem_bodies {head : String} {body : List String}
    (herror : (run steps).error = none) (hbody : body ∈ Step.bodies head steps)
    (hname : name ∈ body) : ∃ symbol, (run steps).symbols[name]? = some symbol := by
  obtain ⟨quiet, hstep⟩ := Step.exists_of_mem_bodies hbody
  obtain ⟨rule, -, hrule⟩ := exists_rule_of_mem herror hstep
  obtain ⟨-, hall⟩ := resolveRule_eq_ok_iff.1 hrule
  obtain ⟨i, hi, rfl⟩ := List.mem_iff_getElem.1 hname
  exact ⟨_, hall.get hi (hall.length_eq ▸ hi)⟩

/-- The rules with one head are those of the steps for it. -/
theorem map_body_filter_rules {id : Nat} (herror : (run steps).error = none)
    (hname : (run steps).symbols[name]? = some (.nonterm id)) :
    ((steps.filterMap (run steps).rule?).filter (·.head == id)).map (·.body.toList) =
      (Step.bodies name steps).map (List.map (run steps).symbolOf) := by
  rw [List.filter_filterMap, List.map_filterMap, Step.bodies, List.map_filterMap]
  refine List.filterMap_congr fun step hstep => ?_
  cases step with
  | nonterm | terminal => rfl
  | rule quiet head body =>
    obtain ⟨rule, -, hrule⟩ := exists_rule_of_mem herror hstep
    obtain ⟨hhead, hbody⟩ := resolveRule_eq_ok_iff.1 hrule
    rw [rule?_of_resolveRule hrule, Step.body?]
    by_cases heq : head = name
    · subst heq
      obtain rfl : rule.head = id := by simpa [hhead] using hname
      simp [map_symbolOf_eq hbody]
    · have hne : rule.head ≠ id := by
        rintro rfl
        exact heq (eq_of_symbols_nonterm hhead hname)
      simp [heq, hne]

end Builder

/-! ### Built grammars -/

namespace Grammar

variable {g : Grammar} {steps : List Step} {start name : String}

/-- The number of the non-terminal called `name`. -/
def number (g : Grammar) (name : String) : Nat := g.nonterms.toList.idxOf name

/-- The bodies of the rules of the non-terminal called `name`, in the order of the rules. -/
def bodies (g : Grammar) (name : String) : List (List Symbol) :=
  (g.alternativesOf (g.number name)).map fun index => (g.rule index).body.toList

/-- A name has the number of its place in the list. -/
theorem WellFormed.number_eq (h : g.WellFormed) {id : Nat} (hid : g.nonterms[id]? = some name) :
    g.number name = id := by
  obtain ⟨hlt, rfl⟩ := Array.getElem?_eq_some_iff.1 hid
  rw [number, ← Array.getElem_toList]
  exact List.Nodup.idxOf_getElem h.nodup_nonterms id hlt

/-- The rules of a non-terminal, without their numbers. -/
theorem WellFormed.bodies_eq (h : g.WellFormed) (name : String) :
    g.bodies name =
      (g.rules.toList.filter (·.head == g.number name)).map (·.body.toList) := by
  rw [bodies, h.alternativesOf_eq, ← map_rule_range, List.filter_map, List.map_map]
  rfl

/-- The symbol of a non-terminal is known by the place of its name. -/
theorem symbols_number (hbuild : build steps start = .ok g) (hname : name ∈ g.nonterms.toList) :
    (Builder.run steps).symbols[name]? = some (.nonterm (g.number name)) := by
  obtain ⟨-, -, -, hnonterms, -⟩ := Builder.finish_eq_ok_iff.1 hbuild
  obtain ⟨id, hid⟩ := List.mem_iff_getElem?.1 hname
  rw [Array.getElem?_toList] at hid
  rw [(wellFormed_of_build hbuild).number_eq hid, (Builder.consistent_run steps).nonterm_iff,
    ← hnonterms, hid]

/-- The rules of a non-terminal are those of the steps for its name, in the order of the first
steps for them. -/
theorem bodies_build (hbuild : build steps start = .ok g) (hname : name ∈ g.nonterms.toList) :
    g.bodies name =
      ((Step.bodies name steps).map (List.map (Builder.run steps).symbolOf)).eraseDups := by
  obtain ⟨herror, -, -, -, hrules, -⟩ := Builder.finish_eq_ok_iff.1 hbuild
  rw [(wellFormed_of_build hbuild).bodies_eq, hrules, Builder.toList_rules_run herror,
    filter_eraseDups, map_eraseDups,
    Builder.map_body_filter_rules herror (symbols_number hbuild hname)]
  -- A rule of this non-terminal is known by its body.
  intro rule hrule rule' hrule' hbody
  have hhead := beq_iff_eq.1 (List.mem_filter.1 hrule).2
  have hhead' := beq_iff_eq.1 (List.mem_filter.1 hrule').2
  cases rule
  cases rule'
  rw [Rule.mk.injEq]
  exact ⟨hhead.trans hhead'.symm, Array.toList_inj.1 hbody⟩

end Grammar

end Earley
