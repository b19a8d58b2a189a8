/-
  `Equality` — comparing two trees.

  Two trees are compared with a list of pairs that are still to be compared, so that their depth
  does not matter. A pair of nodes whose own parts agree is replaced by the pairs of their
  children, of which there have to be equally many. The last children are compared first.
-/
import Earley.Tree.Basic

namespace Earley

namespace ParseTree

/-- Tells whether two trees agree in everything but their children. -/
def sameRoot : ParseTree → ParseTree → Bool
  | leaf terminal text span, leaf terminal' text' span' =>
    terminal == terminal' && text == text' && span == span'
  | node head rule span children, node head' rule' span' children' =>
    head == head' && rule == rule' && span == span' && children.length == children'.length
  | _, _ => false

theorem sizeAll_eq_of_perm {ts us : List ParseTree} (h : ts.Perm us) : sizeAll ts = sizeAll us := by
  induction h with
  | nil => rfl
  | cons t _ ih => rw [sizeAll, sizeAll, ih]
  | swap t u ts =>
    simp only [sizeAll]
    omega
  | trans _ _ ih ih' => exact ih.trans ih'

theorem sizeAll_map_fst_zip_le (ts us : List ParseTree) :
    sizeAll ((ts.zip us).map Prod.fst) ≤ sizeAll ts := by
  induction ts generalizing us with
  | nil => exact Nat.le_refl _
  | cons t ts ih =>
    cases us with
    | nil => exact Nat.zero_le _
    | cons u us => exact Nat.add_le_add_left (ih us) _

/-- Tells whether the two trees of each pair are the same. -/
def sameAll : List (ParseTree × ParseTree) → Bool
  | [] => true
  | (t, u) :: pending =>
    t.sameRoot u && sameAll ((t.children.zip u.children).reverse ++ pending)
termination_by pending => sizeAll (pending.map Prod.fst)
decreasing_by
  have hle := sizeAll_map_fst_zip_le t.children u.children
  have hreverse := sizeAll_eq_of_perm ((t.children.zip u.children).map Prod.fst).reverse_perm
  simp only [List.map_append, List.map_reverse, sizeAll_append, List.map_cons, sizeAll, size_eq t]
  omega

/-- Tells whether two trees are the same. -/
def same (t u : ParseTree) : Bool := sameAll [(t, u)]

instance : BEq ParseTree := ⟨same⟩

end ParseTree

end Earley
