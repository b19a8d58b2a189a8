/-
  Places do not matter to the grammar.

  Merged declarations that differ only in the places of their names and references are flattened to
  the same steps and refer to the same names. So they pass the same checks and give the same
  grammar.
-/
import Earley.Proofs.Ebnf.Compile
import Earley.Proofs.Ebnf.Places

namespace Earley

/-! ### The same steps -/

theorem Bracket.isSpliced_unplacedAmong_iff {bracket : Bracket} {body : List (List Atom)} :
    bracket.IsSpliced (Atom.unplacedAmong body) ↔ bracket.IsSpliced body := by
  constructor
  · intro h
    cases hbody : Atom.unplacedAmong body with
    | nil =>
      rw [hbody] at h
      cases h
    | cons alternative rest =>
      rw [hbody] at h
      cases h
      -- There is one alternative behind the other in the body, too.
      rw [Atom.unplacedAmong_eq_map, List.map_eq_singleton_iff] at hbody
      obtain ⟨alternative', rfl, -⟩ := hbody
      exact .group alternative'
  · rintro ⟨alternative⟩
    exact .group _

namespace Atom

section Steps

variable (form : Terminal → String) (rule : String)

mutual

theorem flatten_unplaced (opened : Nat) (atom : Atom) :
    atom.unplaced.flatten form rule opened = atom.flatten form rule opened := by
  cases atom with
  | reference | literal | range => rfl
  | nested bracket body =>
    rw [unplaced]
    by_cases h : bracket.IsSpliced body
    · cases h with | group alternative =>
      rw [unplacedAmong, unplacedAmong, flatten, flatten]
      exact flattenIn_unplacedIn opened alternative
    · have h' : ¬bracket.IsSpliced (unplacedAmong body) := by
        rwa [Bracket.isSpliced_unplacedAmong_iff]
      rw [flatten_nested h, flatten_nested h']
      dsimp only
      rw [flattenAmong_unplacedAmong _ _ (opened + 1) body]

theorem flattenIn_unplacedIn (opened : Nat) (atoms : List Atom) :
    flattenIn form rule opened (unplacedIn atoms) = flattenIn form rule opened atoms := by
  cases atoms with
  | nil => rfl
  | cons atom atoms =>
    rw [unplacedIn, flattenIn, flattenIn, flatten_unplaced opened atom,
      flattenIn_unplacedIn (atom.flatten form rule opened).opened atoms]

theorem flattenAmong_unplacedAmong (head : String) (lead : List String) (opened : Nat)
    (body : List (List Atom)) :
    flattenAmong form rule head lead opened (unplacedAmong body) =
      flattenAmong form rule head lead opened body := by
  cases body with
  | nil => rfl
  | cons alternative body =>
    rw [unplacedAmong, flattenAmong, flattenAmong, flattenIn_unplacedIn opened alternative,
      flattenAmong_unplacedAmong head lead (flattenIn form rule opened alternative).opened body]

end

end Steps

/-! ### The same names -/

mutual

theorem map_name_references_unplaced {after after' : List Reference}
    (h : after.map Reference.name = after'.map Reference.name) (atom : Atom) :
    (atom.unplaced.references after).map Reference.name =
      (atom.references after').map Reference.name := by
  cases atom with
  | reference name => exact congrArg (name :: ·) h
  | literal | range => exact h
  | nested bracket body => exact map_name_referencesAmong_unplacedAmong h body

theorem map_name_referencesIn_unplacedIn {after after' : List Reference}
    (h : after.map Reference.name = after'.map Reference.name) (atoms : List Atom) :
    (referencesIn after (unplacedIn atoms)).map Reference.name =
      (referencesIn after' atoms).map Reference.name := by
  cases atoms with
  | nil => exact h
  | cons atom atoms =>
    exact map_name_references_unplaced (map_name_referencesIn_unplacedIn h atoms) atom

theorem map_name_referencesAmong_unplacedAmong {after after' : List Reference}
    (h : after.map Reference.name = after'.map Reference.name) (body : List (List Atom)) :
    (referencesAmong after (unplacedAmong body)).map Reference.name =
      (referencesAmong after' body).map Reference.name := by
  cases body with
  | nil => exact h
  | cons alternative body =>
    exact map_name_referencesIn_unplacedIn (map_name_referencesAmong_unplacedAmong h body)
      alternative

end

end Atom

namespace Declaration

variable {merged merged' : List Declaration} {start : String} {endOfText endOfText' : Location}
  {g : Grammar}

theorem map_name_map_unplaced (ds : List Declaration) :
    (ds.map unplaced).map name = ds.map name := by
  rw [List.map_map]
  rfl

theorem map_name_eq_of_map_unplaced_eq (h : merged.map unplaced = merged'.map unplaced) :
    merged.map name = merged'.map name := by
  rw [← map_name_map_unplaced, h, map_name_map_unplaced]

theorem stepsBy_unplaced (form : Terminal → String) (d : Declaration) :
    d.unplaced.stepsBy form = d.stepsBy form := by
  rw [stepsBy, stepsBy, unplaced, Atom.flattenAmong_unplacedAmong]

theorem allSteps_map_unplaced (ds : List Declaration) :
    allSteps (ds.map unplaced) = allSteps ds := by
  rw [allSteps, allStepsBy, allStepsBy, bodyStepsBy, bodyStepsBy, List.map_map, List.flatMap_map,
    funext (stepsBy_unplaced Terminal.display)]
  rfl

/-- The names in the bodies of declarations, in the order of the text. -/
def referents (ds : List Declaration) : List String :=
  (ds.flatMap references).map Reference.name

theorem referents_map_unplaced (ds : List Declaration) :
    referents (ds.map unplaced) = referents ds := by
  have hreferences (d : Declaration) :
      d.unplaced.references.map Reference.name = d.references.map Reference.name :=
    Atom.map_name_referencesAmong_unplacedAmong rfl d.body
  simp only [referents, List.flatMap_map, List.map_flatMap, hreferences]

theorem check_eq_ok_iff_referents :
    check merged start endOfText = .ok () ↔
      (∀ n ∈ referents merged, n ∈ merged.map name) ∧ start ∈ merged.map name := by
  simp only [check_eq_ok_iff, referents, List.forall_mem_map, List.mem_flatMap,
    forall_exists_index, and_imp]
  rw [and_congr_left_iff]
  intro _
  exact ⟨fun h reference d hd hreference => h d hd reference hreference,
    fun h d hd reference hreference => h reference d hd hreference⟩

/-- Declarations that differ only in places give the same grammar. -/
theorem compile_eq_ok_iff_of_map_unplaced_eq (h : merged.map unplaced = merged'.map unplaced) :
    compile merged start endOfText = .ok g ↔ compile merged' start endOfText' = .ok g := by
  have hreferents : referents merged = referents merged' := by
    rw [← referents_map_unplaced, h, referents_map_unplaced]
  have hsteps : allSteps merged = allSteps merged' := by
    rw [← allSteps_map_unplaced, h, allSteps_map_unplaced]
  rw [compile_eq_ok_iff, compile_eq_ok_iff, check_eq_ok_iff_referents, check_eq_ok_iff_referents,
    hreferents, hsteps, map_name_eq_of_map_unplaced_eq h]

end Declaration

end Earley
