/-
  Flattened declarations are accepted by the builder.

  The steps that an atom is flattened to support each other, if the head of its rule and the names
  that it mentions are registered before (`Atom.supported_flatten`), and every bracket that gets a
  non-terminal gets a rule for it, too (`Atom.ruled_flatten`). So the builder has no error for
  writable declarations that mention only declared names (`Declaration.exists_build`): every name
  is registered before the first body.
-/
import Earley.Proofs.Ebnf.Compile
import Earley.Proofs.Ebnf.Writing
import Earley.Proofs.Grammar.Supported

namespace Earley

open Step

/-! ### Supported steps -/

/-- Tells that the steps of a flattening support each other and register its names. -/
structure Flattened.IsSupported (earlier : List Step) (f : Flattened) : Prop where
  steps : Supported earlier f.steps.toList
  names : ∀ name ∈ f.names, Registers (earlier ++ f.steps.toList) name

theorem Flattened.isSupported_ofTerminal {form : Terminal → String} {t : Terminal}
    (ht : t.isVacuous = false) (earlier : List Step) (opened : Nat) :
    (ofTerminal form t opened).IsSupported earlier where
  steps := supported_singleton.2 ⟨rfl, ht⟩
  names name hname := by
    obtain rfl := List.mem_singleton.1 hname
    exact ⟨.terminal true (form t) t, List.mem_append_right _ (List.mem_singleton_self _), rfl⟩

namespace Bracket

variable {earlier : List Step} {auxiliary : String} {quiet : Bool}

/-- The closing rule of a bracket needs no more than the name of the bracket. -/
theorem supported_closing (h : nonterm quiet auxiliary ∈ earlier) (bracket : Bracket) :
    Supported earlier (bracket.closing auxiliary).toList := by
  have hrule : Supported earlier [rule true auxiliary []] :=
    supported_singleton.2 ⟨rfl, ⟨quiet, h⟩, by simp⟩
  cases bracket with
  | optional | repetition => exact hrule
  | group => trivial

/-- What the alternatives of a bracket start with is registered together with the bracket. -/
theorem registers_lead (h : nonterm quiet auxiliary ∈ earlier) (bracket : Bracket) :
    ∀ name ∈ bracket.lead auxiliary, Registers earlier name := by
  intro name hname
  cases bracket with
  | repetition =>
    obtain rfl := List.mem_singleton.1 hname
    exact registers_nonterm h
  | optional | group => cases hname

end Bracket

namespace Atom

/-- Tells that an atom is writable and that the names that it mentions are registered. -/
structure Buildable (earlier : List Step) (atom : Atom) : Prop where
  writable : atom.Writable
  registers : ∀ reference, atom.Mentions reference → Registers earlier reference.name

variable {earlier earlier' : List Step} {form : Terminal → String} {rule : String}

theorem Buildable.mono {atom : Atom} (hsubset : earlier ⊆ earlier') (h : atom.Buildable earlier) :
    atom.Buildable earlier' where
  writable := h.writable
  registers reference hmentions := (h.registers reference hmentions).mono hsubset

theorem Buildable.inner {bracket : Bracket} {body : List (List Atom)}
    (h : (Atom.nested bracket body).Buildable earlier) :
    ∀ alternative ∈ body, ∀ atom ∈ alternative, atom.Buildable earlier := by
  intro alternative halternative atom hatom
  obtain ⟨hwritable, hregisters⟩ := h
  cases hwritable with | nested _ _ hbody =>
  exact ⟨hbody alternative halternative atom hatom,
    fun reference hmentions => hregisters reference (.nested bracket halternative hatom hmentions)⟩

mutual

/-- The steps of an atom support each other and register the names that it is flattened to. -/
theorem supported_flatten {earlier : List Step} (opened : Nat) (atom : Atom)
    (h : atom.Buildable earlier) : (atom.flatten form rule opened).IsSupported earlier := by
  cases atom with
  | reference name location =>
    refine ⟨trivial, fun n hn => ?_⟩
    obtain rfl := List.mem_singleton.1 hn
    exact (h.registers _ (.reference n location)).mono (List.subset_append_left _ _)
  | literal text =>
    by_cases hempty : text.isEmpty = true
    · rw [flatten, if_pos hempty]
      exact ⟨trivial, by simp⟩
    · have hvacuous : (Terminal.literal text.toList).isVacuous = false := by
        rw [String.isEmpty_iff, ← String.toList_eq_nil_iff] at hempty
        simpa [Terminal.isVacuous] using hempty
      rw [flatten, if_neg hempty]
      exact Flattened.isSupported_ofTerminal hvacuous earlier opened
  | range lo hi =>
    have hvacuous : (Terminal.range lo hi).isVacuous = false := by
      cases h.writable with | range hle => simpa [Terminal.isVacuous] using hle
    exact Flattened.isSupported_ofTerminal hvacuous earlier opened
  | nested bracket body =>
    have hbody := h.inner
    by_cases hspliced : bracket.IsSpliced body
    · cases hspliced with | group alternative =>
      rw [flatten]
      exact supported_flattenIn opened alternative (by simpa using hbody)
    · rw [flatten_nested hspliced]
      dsimp only
      generalize bracket.auxiliary rule (opened + 1) = auxiliary
      -- The name of the bracket comes first, so the rules of the bracket may use it.
      have hauxiliary : nonterm true auxiliary ∈ earlier ++ [nonterm true auxiliary] :=
        List.mem_append_right _ (List.mem_singleton_self _)
      have hlater : ∀ alternative ∈ body, ∀ atom ∈ alternative,
          atom.Buildable (earlier ++ [nonterm true auxiliary]) :=
        fun alternative halternative atom hatom =>
          (hbody alternative halternative atom hatom).mono (List.subset_append_left _ _)
      have hinner := supported_flattenAmong (opened + 1) body hlater hauxiliary
        (bracket.registers_lead hauxiliary)
      have hclosing := bracket.supported_closing (List.mem_append_left
        (flattenAmong form rule auxiliary (bracket.lead auxiliary) (opened + 1) body).1.toList
        hauxiliary)
      refine ⟨?_, fun name hname => ?_⟩
      · simp only [Steps.toList_append, Steps.toList_one, supported_append, supported_singleton]
        rw [List.append_assoc] at hclosing
        exact ⟨⟨rfl, hinner⟩, hclosing⟩
      · obtain rfl := List.mem_singleton.1 hname
        refine ⟨nonterm true name, ?_, rfl⟩
        simp [Steps.toList_append, Steps.toList_one]

theorem supported_flattenIn {earlier : List Step} (opened : Nat) (atoms : List Atom)
    (h : ∀ atom ∈ atoms, atom.Buildable earlier) :
    (flattenIn form rule opened atoms).IsSupported earlier := by
  cases atoms with
  | nil => exact ⟨trivial, by simp [flattenIn]⟩
  | cons atom atoms =>
    obtain ⟨hatom, hatoms⟩ := List.forall_mem_cons.1 h
    obtain ⟨hsteps, hnames⟩ := supported_flatten opened atom hatom
    have hlater : ∀ atom' ∈ atoms,
        atom'.Buildable (earlier ++ (atom.flatten form rule opened).steps.toList) :=
      fun atom' hatom' => (hatoms atom' hatom').mono (List.subset_append_left _ _)
    obtain ⟨hsteps', hnames'⟩ :=
      supported_flattenIn (atom.flatten form rule opened).opened atoms hlater
    rw [flattenIn]
    refine ⟨?_, ?_⟩
    · rw [Steps.toList_append]
      exact supported_append.2 ⟨hsteps, hsteps'⟩
    · rw [Steps.toList_append, ← List.append_assoc]
      refine List.forall_mem_append.2 ⟨fun name hname => ?_, hnames'⟩
      exact (hnames name hname).mono (List.subset_append_left _ _)

/-- The steps of alternatives support each other, if the head is registered and so is the lead. -/
theorem supported_flattenAmong {earlier : List Step} {head : String} {lead : List String}
    {quiet : Bool} (opened : Nat) (body : List (List Atom))
    (h : ∀ alternative ∈ body, ∀ atom ∈ alternative, atom.Buildable earlier)
    (hhead : nonterm quiet head ∈ earlier) (hlead : ∀ name ∈ lead, Registers earlier name) :
    Supported earlier (flattenAmong form rule head lead opened body).1.toList := by
  cases body with
  | nil => trivial
  | cons alternative body =>
    obtain ⟨halternative, hbody⟩ := List.forall_mem_cons.1 h
    obtain ⟨hsteps, hnames⟩ := supported_flattenIn opened alternative halternative
    have hsubset :=
      List.subset_append_left earlier (flattenIn form rule opened alternative).steps.toList
    have hrule : SupportedBy (earlier ++ (flattenIn form rule opened alternative).steps.toList)
        (.rule true head (lead ++ (flattenIn form rule opened alternative).names)) :=
      ⟨rfl, ⟨quiet, hsubset hhead⟩,
        List.forall_mem_append.2 ⟨fun name hname => (hlead name hname).mono hsubset, hnames⟩⟩
    have hrest := supported_flattenAmong (flattenIn form rule opened alternative).opened body hbody
      hhead hlead
    rw [flattenAmong]
    simp only [Steps.toList_append, Steps.toList_one, supported_append, supported_singleton]
    exact ⟨⟨hsteps, hrule⟩, hrest.mono (List.subset_append_left _ _)⟩

end

/-! ### Rules for all non-terminals -/

theorem exists_rule_flattenAmong (form : Terminal → String) (rule head : String)
    (lead : List String) (opened : Nat) {body : List (List Atom)} (hne : body ≠ []) :
    ∃ names,
      Step.rule true head names ∈ (flattenAmong form rule head lead opened body).1.toList := by
  cases body with
  | nil => exact absurd rfl hne
  | cons alternative body =>
    refine ⟨lead ++ (flattenIn form rule opened alternative).names, ?_⟩
    simp [flattenAmong, Steps.toList_append, Steps.toList_one]

theorem ruled_closing (bracket : Bracket) (auxiliary : String) :
    Ruled (bracket.closing auxiliary).toList := by
  cases bracket with
  | optional | repetition => exact ruled_rule true auxiliary []
  | group => exact nofun

mutual

/-- Every bracket in an atom that gets a non-terminal gets a rule for it. -/
theorem ruled_flatten (opened : Nat) (atom : Atom) (h : atom.Writable) :
    Ruled (atom.flatten form rule opened).steps.toList := by
  cases h with
  | reference => exact nofun
  | literal text =>
    rw [flatten]
    split
    · exact nofun
    · exact ruled_terminal true _ _
  | range => exact ruled_terminal true _ _
  | @nested bracket body hne hbody =>
    by_cases hspliced : bracket.IsSpliced body
    · cases hspliced with | group alternative =>
      rw [flatten]
      exact ruled_flattenIn opened alternative (by simpa using hbody)
    · rw [flatten_nested hspliced]
      dsimp only
      generalize bracket.auxiliary rule (opened + 1) = auxiliary
      -- The first alternative gives the bracket a rule.
      obtain ⟨names, hrule⟩ :=
        exists_rule_flattenAmong form rule auxiliary (bracket.lead auxiliary) (opened + 1) hne
      have hinner := ruled_flattenAmong auxiliary (bracket.lead auxiliary) (opened + 1) body hbody
      have hruled := hinner.append (ruled_closing bracket auxiliary)
      rw [Steps.toList_append, Steps.toList_append, List.append_assoc]
      exact hruled.cons (List.mem_append_left _ hrule)

theorem ruled_flattenIn (opened : Nat) (atoms : List Atom) (h : ∀ atom ∈ atoms, atom.Writable) :
    Ruled (flattenIn form rule opened atoms).steps.toList := by
  cases atoms with
  | nil => exact nofun
  | cons atom atoms =>
    obtain ⟨hatom, hatoms⟩ := List.forall_mem_cons.1 h
    rw [flattenIn, Steps.toList_append]
    exact (ruled_flatten opened atom hatom).append (ruled_flattenIn _ atoms hatoms)

theorem ruled_flattenAmong (head : String) (lead : List String) (opened : Nat)
    (body : List (List Atom)) (h : ∀ alternative ∈ body, ∀ atom ∈ alternative, atom.Writable) :
    Ruled (flattenAmong form rule head lead opened body).1.toList := by
  cases body with
  | nil => exact nofun
  | cons alternative body =>
    obtain ⟨halternative, hbody⟩ := List.forall_mem_cons.1 h
    have hfirst := ruled_flattenIn opened alternative halternative
    have hrest :=
      ruled_flattenAmong head lead (flattenIn form rule opened alternative).opened body hbody
    rw [flattenAmong, Steps.toList_append, Steps.toList_append]
    exact (hfirst.append (ruled_rule true head _)).append hrest

end

end Atom

/-! ### All declarations -/

namespace Declaration

variable {merged : List Declaration} {form : Terminal → String} {start : String}

/-- The names are registered before the first body, so every body finds what it mentions. -/
theorem supported_allStepsBy (hwritable : ∀ d ∈ merged, d.Writable)
    (hreferences : ∀ d ∈ merged, ∀ reference ∈ d.references, reference.name ∈ merged.map name) :
    Supported [] (allStepsBy form merged) := by
  have hnames (earlier : List Step) (ds : List Declaration) :
      Supported earlier (ds.map fun d => nonterm true d.name) := by
    induction ds generalizing earlier with
    | nil => trivial
    | cons d ds ih => exact ⟨rfl, ih _⟩
  refine supported_append.2 ⟨hnames [] merged, supported_flatMap fun d hd => ?_⟩
  have hhead : ∀ n ∈ merged.map name,
      nonterm true n ∈ [] ++ merged.map fun d => nonterm true d.name := by
    intro n hn
    obtain ⟨d', hd', rfl⟩ := List.mem_map.1 hn
    exact List.mem_map.2 ⟨d', hd', rfl⟩
  refine Atom.supported_flattenAmong 0 d.body (fun alternative halternative atom hatom => ?_)
    (hhead d.name (List.mem_map_of_mem hd)) (by simp)
  refine ⟨(hwritable d hd).atom alternative halternative atom hatom, fun reference hmentions => ?_⟩
  have hmem := mem_references_iff.2 ⟨alternative, halternative, atom, hatom, hmentions⟩
  exact registers_nonterm (hhead reference.name (hreferences d hd reference hmem))

theorem ruled_allStepsBy (hwritable : ∀ d ∈ merged, d.Writable) :
    Ruled (allStepsBy form merged) := by
  intro quiet n hmem
  rcases List.mem_append.1 hmem with hmem | hmem
  · -- A declared name has the rule of its first alternative.
    obtain ⟨d, hd, heq⟩ := List.mem_map.1 hmem
    cases heq
    obtain ⟨names, hrule⟩ :=
      Atom.exists_rule_flattenAmong form d.name d.name [] 0 (hwritable d hd).ne_nil
    exact ⟨true, names, List.mem_append_right _ (List.mem_flatMap.2 ⟨d, hd, hrule⟩)⟩
  · obtain ⟨d, hd, hmem⟩ := List.mem_flatMap.1 hmem
    obtain ⟨quiet', names, hrule⟩ :=
      Atom.ruled_flattenAmong d.name [] 0 d.body (hwritable d hd).atom quiet n hmem
    exact ⟨quiet', names, List.mem_append_right _ (List.mem_flatMap.2 ⟨d, hd, hrule⟩)⟩

/-- Declarations that pass the checks put a grammar together. -/
theorem exists_build (hidentifier : ∀ d ∈ merged, IsIdentifier d.name)
    (hwritable : ∀ d ∈ merged, d.Writable)
    (hreferences : ∀ d ∈ merged, ∀ reference ∈ d.references, reference.name ∈ merged.map name)
    (hstart : start ∈ merged.map name) :
    ∃ g, Grammar.build (allSteps merged) start = .ok g := by
  obtain ⟨d, hd, rfl⟩ := List.mem_map.1 hstart
  have hstep : nonterm true d.name ∈ allSteps merged :=
    List.mem_append_left _ (List.mem_map.2 ⟨d, hd, rfl⟩)
  exact Grammar.exists_build (supported_allStepsBy hwritable hreferences)
    (keepsApart_allSteps hidentifier) (ruled_allStepsBy hwritable) hstep

end Declaration

end Earley
