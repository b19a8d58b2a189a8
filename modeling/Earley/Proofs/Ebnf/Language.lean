/-
  The languages that declarations describe.

  Under a language for each name, an atom denotes a language: a reference that of its name, a
  literal its text alone, a range the texts of one character between its ends, and brackets what
  they make of the language between them. A sequence of atoms denotes the texts of its atoms one
  after another, and alternatives the texts of any of them.

  Declarations then read as a system of equations, one for each name, with the alternatives of all
  declarations of that name on the right and nothing on the right of a name without one. The
  system has a least solution (`isLeast_solution`), and to merge declarations does not change it
  (`reading_merge`).
-/
import Mathlib.Order.FixedPoints
import Earley.Proofs.Ebnf.Merge
import Earley.Proofs.Grammar.Valuation

open Computability

namespace Earley

/-- What brackets make of the language between them. -/
def Bracket.language (bracket : Bracket) (L : Language Char) : Language Char :=
  match bracket with
  | .optional => L + 1
  | .repetition => L∗
  | .group => L

theorem Bracket.language_mono (bracket : Bracket) : Monotone bracket.language := by
  intro L M h
  cases bracket with
  | optional => exact add_le_add_left h 1
  | repetition => exact kstar_mono h
  | group => exact h

/-! ### What atoms denote -/

namespace Atom

mutual

/-- The language of an atom, if `env` gives a language to each name. -/
def language (env : Valuation) : Atom → Language Char
  | .reference name _ => env name
  | .literal text => {text.toList}
  | .range lo hi => {w | ∃ c, lo ≤ c ∧ c ≤ hi ∧ w = [c]}
  | .nested bracket body => bracket.language (languageAmong env body)

/-- The language of a sequence of atoms. -/
def languageIn (env : Valuation) : List Atom → Language Char
  | [] => 1
  | atom :: atoms => atom.language env * languageIn env atoms

/-- The language of a list of alternatives. -/
def languageAmong (env : Valuation) : List (List Atom) → Language Char
  | [] => 0
  | alternative :: body => languageIn env alternative + languageAmong env body

end

section Monotone

variable {env env' : Valuation}

mutual

theorem language_mono (h : env ≤ env') (atom : Atom) : atom.language env ≤ atom.language env' := by
  cases atom with
  | reference name _ => exact h name
  | literal text => exact le_rfl
  | range lo hi => exact le_rfl
  | nested bracket body => exact bracket.language_mono (languageAmong_mono h body)

theorem languageIn_mono (h : env ≤ env') (atoms : List Atom) :
    languageIn env atoms ≤ languageIn env' atoms := by
  cases atoms with
  | nil => exact le_rfl
  | cons atom atoms => exact mul_le_mul' (language_mono h atom) (languageIn_mono h atoms)

theorem languageAmong_mono (h : env ≤ env') (body : List (List Atom)) :
    languageAmong env body ≤ languageAmong env' body := by
  cases body with
  | nil => exact le_rfl
  | cons alternative body =>
    exact add_le_add (languageIn_mono h alternative) (languageAmong_mono h body)

end

end Monotone

end Atom

/-! ### Declarations as equations -/

namespace Declaration

variable {declarations merged : List Declaration} {env : Valuation}

/-- The right sides of the equations, if `env` gives a language to each name. -/
def reading (declarations : List Declaration) (env : Valuation) : Valuation := fun name =>
  Atom.languageAmong env (alternativesOf declarations name)

theorem reading_mono (declarations : List Declaration) : Monotone (reading declarations) :=
  fun _ _ h _ => Atom.languageAmong_mono h _

/-- The least solution of the equations. -/
noncomputable def solution (declarations : List Declaration) : Valuation :=
  OrderHom.lfp ⟨reading declarations, reading_mono declarations⟩

theorem isLeast_solution (declarations : List Declaration) :
    IsLeast {env | reading declarations env = env} (solution declarations) :=
  OrderHom.isLeast_lfp ⟨reading declarations, reading_mono declarations⟩

theorem reading_solution (declarations : List Declaration) :
    reading declarations (solution declarations) = solution declarations :=
  (isLeast_solution declarations).1

theorem solution_le (h : reading declarations env ≤ env) : solution declarations ≤ env :=
  OrderHom.lfp_le ⟨reading declarations, reading_mono declarations⟩ h

/-- Merged declarations read as the ones that were merged. -/
theorem reading_merge (h : merge declarations = .ok merged) :
    reading merged = reading declarations := by
  funext env n
  rw [reading, reading, alternativesOf_merge h]

/-- A name without a declaration has nothing. -/
theorem reading_eq_zero {n : String} (h : n ∉ declarations.map name) :
    reading declarations env n = 0 := by
  rw [reading, alternativesOf_eq_nil h, Atom.languageAmong]

end Declaration

end Earley
