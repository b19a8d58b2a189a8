/-
  `Sorted` — texts in ascending order, each once.

  Texts are ordered character by character, by code point.
-/
namespace Earley

/-- The texts of a list in ascending order, each of them once. -/
def sortDistinct (texts : List String) : List String :=
  (texts.mergeSort fun a b => decide (a ≤ b)).eraseReps

end Earley
