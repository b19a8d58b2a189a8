/-
  `Steps` — builder steps in order, put together without copying.

  Steps for a part of a grammar are made of the steps for its parts, at every depth of brackets.
  `Steps` only notes which come before which, and `toList` lists them all in one go.
-/
import Earley.Grammar.Builder

namespace Earley

/-- Some builder steps, in order. -/
inductive Steps
  | none
  | one (step : Step)
  | both (first second : Steps)

namespace Steps

instance : Append Steps := ⟨both⟩

/-- The steps, listed in front of `after`. -/
def before : Steps → (after : List Step) → List Step
  | none, after => after
  | one step, after => step :: after
  | both first second, after => first.before (second.before after)

/-- The steps as a list. -/
def toList (s : Steps) : List Step := s.before []

theorem before_eq (s : Steps) (after : List Step) : s.before after = s.toList ++ after := by
  induction s generalizing after with
  | none => rfl
  | one step => rfl
  | both first second ihFirst ihSecond =>
    simp only [toList, before] at ihFirst ihSecond ⊢
    rw [ihFirst, ihFirst (second.before []), ihSecond, List.append_assoc]

theorem toList_append (s t : Steps) : (s ++ t).toList = s.toList ++ t.toList :=
  s.before_eq t.toList

theorem toList_none : none.toList = [] := rfl

theorem toList_one (step : Step) : (one step).toList = [step] := rfl

end Steps

end Earley
