/-
  `ParseTree` — derivations of an input.

  A leaf is a terminal with the text that it matched, a node a non-terminal with the rule that was
  used and one child for each symbol of its body. Each tree covers a span of the input.

  Trees nest as deep as the input is long: every turn of a repetition adds a level. So trees are
  walked with a list of the trees that are still to be visited (`walk`), which holds a label for
  each of them, and not by recursion into the children. The walk meets the trees in the order in
  which their parts stand in the text, each node before its children.
-/
import Earley.Text.Quoted

namespace Earley

/-- A part of the input, from `start` up to but not including `stop`. -/
structure Span where
  start : Nat
  stop : Nat
  deriving DecidableEq

/-- A derivation of a part of the input. -/
inductive ParseTree
  | leaf (terminal text : String) (span : Span)
  | node (head rule : String) (span : Span) (children : List ParseTree)

namespace ParseTree

/-- The terminal of a leaf, the non-terminal of a node. -/
def symbol : ParseTree → String
  | leaf terminal _ _ => terminal
  | node head _ _ _ => head

/-- The part of the input that a tree covers. -/
def span : ParseTree → Span
  | leaf _ _ span => span
  | node _ _ span _ => span

/-- The trees for the symbols of the rule; a leaf has none. -/
def children : ParseTree → List ParseTree
  | leaf _ _ _ => []
  | node _ _ _ children => children

/-- Tells whether a tree is a leaf. -/
def isLeaf : ParseTree → Bool
  | leaf _ _ _ => true
  | node _ _ _ _ => false

/-- What a listing shows of a tree by itself: the text of a leaf, the rule of a node. -/
def content : ParseTree → String
  | leaf _ text _ => text
  | node _ rule _ _ => rule

/-- The tree reached by going to the children with the given numbers, one after another. -/
def descend? (t : ParseTree) : List Nat → Option ParseTree
  | [] => some t
  | index :: path => t.children[index]?.bind fun child => child.descend? path

/-! ### Size -/

mutual

/-- The number of leaves and nodes in a tree. -/
def size : ParseTree → Nat
  | leaf _ _ _ => 1
  | node _ _ _ children => sizeAll children + 1

/-- The number of leaves and nodes in a list of trees. -/
def sizeAll : List ParseTree → Nat
  | [] => 0
  | t :: trees => t.size + sizeAll trees

end

theorem size_eq (t : ParseTree) : t.size = sizeAll t.children + 1 := by
  cases t <;> rfl

theorem sizeAll_append (ts us : List ParseTree) :
    sizeAll (ts ++ us) = sizeAll ts + sizeAll us := by
  induction ts with
  | nil => simp [sizeAll]
  | cons t ts ih => rw [List.cons_append, sizeAll, sizeAll, ih, Nat.add_assoc]

/-! ### Walking a tree -/

section Walk

variable {α β : Type}

/-- Gives each of several siblings a label, by the label of their parent and whether they are
the last. -/
def labelled (label : α → (last : Bool) → α) (parent : α) :
    List ParseTree → List (α × ParseTree)
  | [] => []
  | [t] => [(label parent true, t)]
  | t :: trees => (label parent false, t) :: labelled label parent trees

theorem map_snd_labelled (label : α → Bool → α) (parent : α) (trees : List ParseTree) :
    (labelled label parent trees).map Prod.snd = trees := by
  fun_induction labelled label parent trees with
  | case1 => rfl
  | case2 => rfl
  | case3 t trees _ ih => rw [List.map_cons, ih]

/-- Visits the trees of a list and all trees below them, each node before its children. -/
def walk (label : α → (last : Bool) → α) (visit : β → α → ParseTree → β) (acc : β) :
    List (α × ParseTree) → β
  | [] => acc
  | (a, t) :: pending =>
    walk label visit (visit acc a t) (labelled label a t.children ++ pending)
termination_by pending => sizeAll (pending.map Prod.snd)
decreasing_by
  simp only [List.map_append, map_snd_labelled, sizeAll_append, List.map_cons, sizeAll, size_eq t]
  omega

end Walk

/-! ### What a walk collects -/

/-- The texts of all leaves, one behind the other. -/
def text (t : ParseTree) : String :=
  walk (fun _ _ => ()) (fun out _ t => if t.isLeaf then out ++ t.content else out) ""
    [((), t)]

end ParseTree

end Earley
