/-
  When merging fails, and what is in merged declarations.

  Merging fails at the first declaration that repeats, up to places, an alternative that an earlier
  declaration gives to its name (`merge_eq_error_iff`). What earlier declarations give to a name is
  what the merged ones give to it, so the test against the merged declaration is a test against all
  earlier ones. If merging does not fail, every alternative is in the merged declaration of its name
  (`mem_body_merge_iff`), and writable declarations stay writable.
-/
import Earley.Proofs.Ebnf.Merge
import Earley.Proofs.Ebnf.Writing

namespace Earley

/-! ### Folds that fail -/

section Fold

variable {α β ε : Type*} {f : β → α → Except ε β} {s s' : β} {xs ys : List α}

theorem foldlM_append_eq_ok_iff :
    (xs ++ ys).foldlM f s = .ok s' ↔
      ∃ next, xs.foldlM f s = .ok next ∧ ys.foldlM f next = .ok s' := by
  rw [List.foldlM_append]
  cases xs.foldlM f s <;> simp [bind, Except.bind]

/-- A fold fails at the first element at which a step fails. -/
theorem foldlM_eq_error_iff {e : ε} :
    xs.foldlM f s = .error e ↔
      ∃ before x after next, xs = before ++ x :: after ∧ before.foldlM f s = .ok next ∧
        f next x = .error e := by
  induction xs generalizing s with
  | nil => simp [pure, Except.pure]
  | cons x xs ih =>
    rw [List.foldlM_cons]
    cases hstep : f s x with
    | error e' =>
      constructor
      · intro h
        cases h
        exact ⟨[], x, xs, s, rfl, rfl, hstep⟩
      · rintro ⟨before, y, after, next, heq, hbefore, hfail⟩
        cases before with
        | nil =>
          -- The failing step is the first one.
          cases heq
          cases hbefore
          rw [hstep] at hfail
          cases hfail
          rfl
        | cons z before =>
          cases heq
          rw [List.foldlM_cons, hstep] at hbefore
          cases hbefore
    | ok next =>
      constructor
      · intro h
        obtain ⟨before, y, after, last, rfl, hbefore, hfail⟩ := ih.1 h
        refine ⟨x :: before, y, after, last, rfl, ?_, hfail⟩
        rw [List.foldlM_cons, hstep]
        exact hbefore
      · rintro ⟨before, y, after, last, heq, hbefore, hfail⟩
        apply ih.2
        cases before with
        | nil =>
          cases heq
          cases hbefore
          rw [hstep] at hfail
          cases hfail
        | cons z before =>
          cases heq
          rw [List.foldlM_cons, hstep] at hbefore
          exact ⟨before, y, after, last, rfl, hbefore, hfail⟩

end Fold

namespace Declaration

variable {ds before merged : List Declaration} {later : Declaration} {n : String}
  {alternative : List Atom} {e : CompileError}

/-! ### Repetitions -/

/-- Tells that a declaration repeats, up to places, an alternative of an earlier declaration of its
name. -/
def IsRepetition (before : List Declaration) (later : Declaration) : Prop :=
  ∃ earlier ∈ before, earlier.name = later.name ∧ ∃ alternative ∈ later.body,
    ∃ alternative' ∈ earlier.body, Atom.unplacedIn alternative = Atom.unplacedIn alternative'

/-- Tells that one of some declarations repeats an alternative of an earlier one. -/
def HasRepetition (ds : List Declaration) : Prop :=
  ∃ before later after, ds = before ++ later :: after ∧ IsRepetition before later

theorem mem_alternativesOf_iff :
    alternative ∈ alternativesOf ds n ↔ ∃ d ∈ ds, d.name = n ∧ alternative ∈ d.body := by
  simp [alternativesOf, and_assoc]

theorem repeats_eq_true_iff {earlier : Declaration} :
    repeats earlier later = true ↔
      ∃ alternative ∈ later.body, ∃ alternative' ∈ earlier.body,
        Atom.unplacedIn alternative = Atom.unplacedIn alternative' := by
  simp only [repeats, List.any_eq_true, Atom.alikeIn_iff]

/-- A declaration cannot be taken in if it repeats what merged declarations give to its name. -/
theorem absorb_eq_error_iff (hnodup : (merged.map name).Nodup) :
    absorb merged later = .error e ↔ IsRepetition merged later ∧ e = repeated later := by
  unfold absorb
  cases hearlier : earlier? merged later with
  | none =>
    rw [earlier?, List.find?_eq_none] at hearlier
    simp only [reduceCtorEq, false_iff, not_and]
    rintro ⟨earlier, hmem, hname, -⟩
    exact absurd (beq_iff_eq.2 hname) (hearlier earlier hmem)
  | some earlier =>
    rw [earlier?] at hearlier
    have hmem := List.mem_of_find?_eq_some hearlier
    have hname : earlier.name = later.name := by simpa using List.find?_some hearlier
    -- No other declaration has the name.
    have hunique : IsRepetition merged later ↔ repeats earlier later = true := by
      rw [repeats_eq_true_iff]
      constructor
      · rintro ⟨d, hd, hdname, hrepeats⟩
        have hbody : d.body = earlier.body := by
          rw [← alternativesOf_eq_body hnodup hd, ← alternativesOf_eq_body hnodup hmem, hdname,
            hname]
        rwa [hbody] at hrepeats
      · exact fun hrepeats => ⟨earlier, hmem, hname, hrepeats⟩
    rw [hunique]
    dsimp only
    split
    · simp [*, eq_comm]
    · simp [*]

theorem isRepetition_iff :
    IsRepetition ds later ↔ ∃ alternative ∈ later.body,
      ∃ alternative' ∈ alternativesOf ds later.name,
        Atom.unplacedIn alternative = Atom.unplacedIn alternative' := by
  simp only [IsRepetition, mem_alternativesOf_iff]
  constructor
  · rintro ⟨d, hd, hname, alternative, ha, alternative', ha', heq⟩
    exact ⟨alternative, ha, alternative', ⟨d, hd, hname, ha'⟩, heq⟩
  · rintro ⟨alternative, ha, alternative', ⟨d, hd, hname, ha'⟩, heq⟩
    exact ⟨d, hd, hname, alternative, ha, alternative', ha', heq⟩

/-- A declaration cannot be taken into what was merged before if it is a repetition. -/
theorem absorb_merge_eq_error_iff (h : merge before = .ok merged) :
    absorb merged later = .error e ↔ IsRepetition before later ∧ e = repeated later := by
  rw [absorb_eq_error_iff (nodup_merge h), isRepetition_iff, alternativesOf_merge h,
    ← isRepetition_iff]

/-- Merging fails at the first repetition. -/
theorem merge_eq_error_iff :
    merge ds = .error e ↔
      ∃ before later after, ds = before ++ later :: after ∧ (∃ merged, merge before = .ok merged) ∧
        IsRepetition before later ∧ e = repeated later := by
  rw [merge, foldlM_eq_error_iff]
  constructor
  · rintro ⟨before, later, after, merged, heq, hmerged, hfail⟩
    exact ⟨before, later, after, heq, ⟨merged, hmerged⟩,
      (absorb_merge_eq_error_iff hmerged).1 hfail⟩
  · rintro ⟨before, later, after, heq, ⟨merged, hmerged⟩, hfail⟩
    exact ⟨before, later, after, merged, heq, hmerged,
      (absorb_merge_eq_error_iff hmerged).2 hfail⟩

/-- Merging fails just if there is a repetition. -/
theorem exists_merge_eq_error_iff : (∃ e, merge ds = .error e) ↔ HasRepetition ds := by
  constructor
  · rintro ⟨e, h⟩
    obtain ⟨before, later, after, heq, -, hrepetition, -⟩ := merge_eq_error_iff.1 h
    exact ⟨before, later, after, heq, hrepetition⟩
  · rintro ⟨before, later, after, rfl, hrepetition⟩
    cases hmerge : merge (before ++ later :: after) with
    | error e => exact ⟨e, rfl⟩
    | ok merged =>
      -- What stands before the repetition was merged, so the repetition would have failed.
      obtain ⟨next, hnext, hrest⟩ := foldlM_append_eq_ok_iff.1 hmerge
      have hfail : absorb next later = .error (repeated later) :=
        (absorb_merge_eq_error_iff hnext).2 ⟨hrepetition, rfl⟩
      rw [List.foldlM_cons, hfail] at hrest
      cases hrest

/-! ### Merged declarations -/

/-- The merged declaration of a name has the alternatives that were declared for the name. -/
theorem mem_body_merge_iff (h : merge ds = .ok merged) {d : Declaration} (hd : d ∈ merged) :
    alternative ∈ d.body ↔ ∃ d' ∈ ds, d'.name = d.name ∧ alternative ∈ d'.body := by
  rw [← alternativesOf_eq_body (nodup_merge h) hd, alternativesOf_merge h, mem_alternativesOf_iff]

/-- Some declaration has an alternative just if some merged one has it. -/
theorem exists_alternative_merge_iff (h : merge ds = .ok merged) {P : List Atom → Prop} :
    (∃ d ∈ merged, ∃ alternative ∈ d.body, P alternative) ↔
      ∃ d ∈ ds, ∃ alternative ∈ d.body, P alternative := by
  constructor
  · rintro ⟨d, hd, alternative, halternative, hP⟩
    obtain ⟨d', hd', -, hmem⟩ := (mem_body_merge_iff h hd).1 halternative
    exact ⟨d', hd', alternative, hmem, hP⟩
  · rintro ⟨d', hd', alternative, halternative, hP⟩
    obtain ⟨d, hd, hname⟩ :=
      List.mem_map.1 ((mem_map_name_merge h).2 (List.mem_map_of_mem hd'))
    exact ⟨d, hd, alternative, (mem_body_merge_iff h hd).2 ⟨d', hd', hname.symm, halternative⟩, hP⟩

theorem writable_merge (h : merge ds = .ok merged) (hds : ∀ d ∈ ds, d.Writable) :
    ∀ d ∈ merged, d.Writable := by
  intro d hd
  obtain ⟨d', hd', hname⟩ :=
    List.mem_map.1 ((mem_map_name_merge h).1 (List.mem_map_of_mem hd))
  obtain ⟨alternative, halternative⟩ := List.exists_mem_of_ne_nil _ (hds d' hd').ne_nil
  refine ⟨List.ne_nil_of_mem ((mem_body_merge_iff h hd).2 ⟨d', hd', hname, halternative⟩),
    fun alternative halternative => ?_⟩
  obtain ⟨d'', hd'', -, hmem⟩ := (mem_body_merge_iff h hd).1 halternative
  exact (hds d'' hd'').atom alternative hmem

end Declaration

end Earley
