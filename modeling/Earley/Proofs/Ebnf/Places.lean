/-
  The references in declarations, and declarations without the places of these.

  The list of references holds just those that an atom mentions at any depth of brackets
  (`Atom.mem_references_iff`). `Atom.alike` compares atoms up to the places of their references: to
  be alike is to be the same once every reference is moved to the origin (`Atom.alike_iff`), so it
  is an equivalence.
-/
import Earley.Ebnf.Declaration

namespace Earley

/-! ### Mentioned names -/

namespace Atom

/-- Tells that a reference stands in an atom, at any depth of brackets. -/
inductive Mentions : Atom → Reference → Prop
  | reference (name : String) (location : Location) :
      Mentions (.reference name location) ⟨name, location⟩
  | nested (bracket : Bracket) {body : List (List Atom)} {alternative : List Atom} {atom : Atom}
      {reference : Reference} (halternative : alternative ∈ body) (hatom : atom ∈ alternative)
      (h : Mentions atom reference) : Mentions (.nested bracket body) reference

variable {reference : Reference}

theorem mentions_reference_iff {name : String} {location : Location} :
    (Atom.reference name location).Mentions reference ↔ reference = ⟨name, location⟩ := by
  constructor
  · intro h
    cases h
    rfl
  · rintro rfl
    exact .reference name location

theorem mentions_nested_iff {bracket : Bracket} {body : List (List Atom)} :
    (Atom.nested bracket body).Mentions reference ↔
      ∃ alternative ∈ body, ∃ atom ∈ alternative, atom.Mentions reference := by
  constructor
  · intro h
    cases h with | nested _ halternative hatom h =>
    exact ⟨_, halternative, _, hatom, h⟩
  · rintro ⟨alternative, halternative, atom, hatom, h⟩
    exact .nested bracket halternative hatom h

mutual

theorem mem_references_iff (after : List Reference) (atom : Atom) :
    reference ∈ atom.references after ↔ atom.Mentions reference ∨ reference ∈ after := by
  cases atom with
  | reference name location => rw [references, List.mem_cons, mentions_reference_iff]
  | literal | range =>
    rw [references]
    exact ⟨Or.inr, fun h => h.resolve_left nofun⟩
  | nested bracket body => rw [references, mem_referencesAmong_iff after body, mentions_nested_iff]

theorem mem_referencesIn_iff (after : List Reference) (atoms : List Atom) :
    reference ∈ referencesIn after atoms ↔
      (∃ atom ∈ atoms, atom.Mentions reference) ∨ reference ∈ after := by
  cases atoms with
  | nil => simp [referencesIn]
  | cons atom atoms =>
    rw [referencesIn, mem_references_iff _ atom, mem_referencesIn_iff after atoms]
    simp only [List.mem_cons, exists_eq_or_imp, or_assoc]

theorem mem_referencesAmong_iff (after : List Reference) (body : List (List Atom)) :
    reference ∈ referencesAmong after body ↔
      (∃ alternative ∈ body, ∃ atom ∈ alternative, atom.Mentions reference) ∨
        reference ∈ after := by
  cases body with
  | nil => simp [referencesAmong]
  | cons alternative body =>
    rw [referencesAmong, mem_referencesIn_iff _ alternative, mem_referencesAmong_iff after body]
    simp only [List.mem_cons, exists_eq_or_imp, or_assoc]

end

end Atom

/-- The references of a declaration are those that its atoms mention. -/
theorem Declaration.mem_references_iff {d : Declaration} {reference : Reference} :
    reference ∈ d.references ↔
      ∃ alternative ∈ d.body, ∃ atom ∈ alternative, atom.Mentions reference := by
  rw [references, Atom.mem_referencesAmong_iff]
  simp

/-! ### Comparison up to places -/

namespace Atom

mutual

/-- An atom with all its references moved to the origin. -/
def unplaced : Atom → Atom
  | .reference name _ => .reference name .origin
  | .literal text => .literal text
  | .range lo hi => .range lo hi
  | .nested bracket body => .nested bracket (unplacedAmong body)

/-- A sequence of atoms with all references moved to the origin. -/
def unplacedIn : List Atom → List Atom
  | [] => []
  | atom :: atoms => atom.unplaced :: unplacedIn atoms

/-- A list of alternatives with all references moved to the origin. -/
def unplacedAmong : List (List Atom) → List (List Atom)
  | [] => []
  | alternative :: body => unplacedIn alternative :: unplacedAmong body

end

theorem unplacedIn_eq_map (atoms : List Atom) : unplacedIn atoms = atoms.map unplaced := by
  induction atoms with
  | nil => rfl
  | cons atom atoms ih => rw [unplacedIn, ih, List.map_cons]

theorem unplacedAmong_eq_map (body : List (List Atom)) :
    unplacedAmong body = body.map unplacedIn := by
  induction body with
  | nil => rfl
  | cons alternative body ih => rw [unplacedAmong, ih, List.map_cons]

mutual

/-- Atoms are alike if nothing but the places of references tells them apart. -/
theorem alike_iff (atom atom' : Atom) :
    atom.alike atom' = true ↔ atom.unplaced = atom'.unplaced := by
  cases atom <;> cases atom' <;> simp only [alike, unplaced, Bool.and_eq_true, beq_iff_eq,
    Bool.false_eq_true, reduceCtorEq, reference.injEq, literal.injEq, range.injEq, nested.injEq,
    and_true]
  case nested.nested bracket body bracket' body' => rw [alikeAmong_iff body body']

theorem alikeIn_iff (atoms atoms' : List Atom) :
    alikeIn atoms atoms' = true ↔ unplacedIn atoms = unplacedIn atoms' := by
  cases atoms <;> cases atoms' <;> simp only [alikeIn, unplacedIn, Bool.and_eq_true,
    Bool.false_eq_true, reduceCtorEq, List.cons.injEq]
  case cons.cons atom atoms atom' atoms' => rw [alike_iff atom atom', alikeIn_iff atoms atoms']

theorem alikeAmong_iff (body body' : List (List Atom)) :
    alikeAmong body body' = true ↔ unplacedAmong body = unplacedAmong body' := by
  cases body <;> cases body' <;> simp only [alikeAmong, unplacedAmong, Bool.and_eq_true,
    Bool.false_eq_true, reduceCtorEq, List.cons.injEq]
  case cons.cons alternative body alternative' body' =>
    rw [alikeIn_iff alternative alternative', alikeAmong_iff body body']

end

end Atom

/-- A declaration with its name and all its references moved to the origin. -/
def Declaration.unplaced (d : Declaration) : Declaration where
  name := d.name
  location := .origin
  body := Atom.unplacedAmong d.body

end Earley
