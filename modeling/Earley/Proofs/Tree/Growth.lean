/-
  `Growth` — which trees derive a part of an input.

  `Grows` builds the trees for symbols over a part of the input, from the first symbol on, and
  knows at each node the goals of the nodes above it. A condition may be put on the nodes. The
  main one is that no goal is repeated on the way down (`Admissible`): although a derivation may
  lead from a goal back to the same goal, one of the least height does not, and so there is an
  admissible tree for whatever is derived (`exists_admissible`).

  Among the admissible trees the preferred one uses at each node the first rule that has any, and
  then lets the leftmost symbols reach farthest (`Preferred`).
-/
import Earley.Proofs.Grammar.WellFormed
import Earley.Tree.Search
import Mathlib.Order.Nat

namespace Earley

/-- A condition on the nodes of a tree, for the goals above the node, the goal of the node, its
rule and its children. -/
abbrev NodeCondition := List Goal → Goal → Nat → List ParseTree → Prop

/-- Tells that `trees` are derivations of the symbols `α`, one behind the other, from position `i`
to position `k`, all of whose nodes meet a condition. -/
inductive Grows (g : Grammar) (input : Array Char) (P : NodeCondition) :
    List Goal → List Symbol → Nat → Nat → List ParseTree → Prop
  | nil {above : List Goal} {i : Nat} : Grows g input P above [] i i []
  | terminal {above : List Goal} {t : Terminal} {α : List Symbol} {i length k : Nat}
      {trees : List ParseTree} (ht : t.matchAt input i = some length)
      (hrest : Grows g input P above α (i + length) k trees) :
      Grows g input P above (.terminal t :: α) i k
        (.leaf t.display (String.ofList (slice input i (i + length))) ⟨i, i + length⟩ :: trees)
  | nonterm {above : List Goal} {id rule : Nat} {α : List Symbol} {i j k : Nat}
      {children trees : List ParseTree} (hrule : rule ∈ g.alternativesOf id)
      (hnode : P above ⟨id, i, j⟩ rule children)
      (hbody : Grows g input P (⟨id, i, j⟩ :: above) (g.rule rule).body.toList i j children)
      (hrest : Grows g input P above α j k trees) :
      Grows g input P above (.nonterm id :: α) i k
        (.node (g.name id) (g.ruleText rule) ⟨i, j⟩ children :: trees)

namespace Grows

variable {g : Grammar} {input : Array Char} {P Q : NodeCondition} {above : List Goal}
  {symbol : Symbol} {α β : List Symbol} {i j k id : Nat} {tree : ParseTree}
  {trees : List ParseTree}

/-! ### Trees and symbols -/

theorem mono (hPQ : ∀ above goal rule children, P above goal rule children →
    Q above goal rule children) (h : Grows g input P above α i k trees) :
    Grows g input Q above α i k trees := by
  induction h with
  | nil => exact .nil
  | terminal ht _ ih => exact .terminal ht ih
  | nonterm hrule hnode _ _ ihbody ihrest =>
    exact .nonterm hrule (hPQ _ _ _ _ hnode) ihbody ihrest

theorem append {trees' : List ParseTree} (h : Grows g input P above α i j trees)
    (h' : Grows g input P above β j k trees') :
    Grows g input P above (α ++ β) i k (trees ++ trees') := by
  induction h with
  | nil => exact h'
  | terminal ht _ ih => exact .terminal ht (ih h')
  | nonterm hrule hnode hbody _ _ ih => exact .nonterm hrule hnode hbody (ih h')

theorem nil_iff : Grows g input P above [] i k trees ↔ i = k ∧ trees = [] := by
  constructor
  · intro h
    cases h
    exact ⟨rfl, rfl⟩
  · rintro ⟨rfl, rfl⟩
    exact .nil

/-- The tree for the first symbol ends where those for the other symbols begin. -/
theorem exists_of_cons (h : Grows g input P above (symbol :: α) i k trees) :
    ∃ tree rest, trees = tree :: rest ∧ tree.span.start = i ∧
      Grows g input P above [symbol] i tree.span.stop [tree] ∧
      Grows g input P above α tree.span.stop k rest := by
  cases h with
  | terminal ht hrest => exact ⟨_, _, rfl, rfl, .terminal ht .nil, hrest⟩
  | nonterm hrule hnode hbody hrest =>
    exact ⟨_, _, rfl, rfl, .nonterm hrule hnode hbody .nil, hrest⟩

theorem span_eq (h : Grows g input P above [symbol] i k [tree]) : tree.span = ⟨i, k⟩ := by
  cases h with
  | terminal ht hrest =>
    obtain ⟨rfl, -⟩ := nil_iff.1 hrest
    rfl
  | nonterm hrule hnode hbody hrest =>
    obtain ⟨rfl, -⟩ := nil_iff.1 hrest
    rfl

/-- A tree for a non-terminal is a node. -/
theorem nonterm_iff : Grows g input P above [.nonterm id] i k [tree] ↔
    ∃ rule ∈ g.alternativesOf id, ∃ children,
      tree = .node (g.name id) (g.ruleText rule) ⟨i, k⟩ children ∧
        P above ⟨id, i, k⟩ rule children ∧
        Grows g input P (⟨id, i, k⟩ :: above) (g.rule rule).body.toList i k children := by
  constructor
  · intro h
    cases h with
    | nonterm hrule hnode hbody hrest =>
      obtain ⟨rfl, -⟩ := nil_iff.1 hrest
      exact ⟨_, hrule, _, rfl, hnode, hbody⟩
  · rintro ⟨rule, hrule, children, rfl, hnode, hbody⟩
    exact .nonterm hrule hnode hbody .nil

/-- What trees are derivations of is derived. -/
theorem spans (hg : g.WellFormed) (h : Grows g input P above α i k trees) :
    g.Spans input α i k := by
  induction h with
  | nil => exact .nil
  | terminal ht _ ih => exact .terminal ht ih
  | nonterm hrule _ _ _ ihbody ihrest =>
    obtain ⟨hlt, rfl⟩ := hg.mem_alternativesOf_iff.1 hrule
    exact .nonterm hlt ihbody ihrest

end Grows

/-! ### Admissible trees -/

/-- The condition that a goal is not repeated on the way down. -/
def Fresh : NodeCondition := fun above goal _ _ => goal ∉ above

/-- Tells that `trees` are derivations in which no goal is repeated on the way down, nor is one of
`above`. -/
abbrev Admissible (g : Grammar) (input : Array Char) (above : List Goal) (α : List Symbol)
    (i k : Nat) (trees : List ParseTree) : Prop :=
  Grows g input Fresh above α i k trees

/-- Tells that symbols have admissible trees. -/
def Growable (g : Grammar) (input : Array Char) (above : List Goal) (α : List Symbol)
    (i k : Nat) : Prop :=
  ∃ trees, Admissible g input above α i k trees

section Growable

variable {g : Grammar} {input : Array Char} {above : List Goal} {symbol : Symbol}
  {α : List Symbol} {i j k id : Nat}

theorem growable_nil_iff : Growable g input above [] i k ↔ i = k := by
  constructor
  · rintro ⟨trees, h⟩
    exact (Grows.nil_iff.1 h).1
  · rintro rfl
    exact ⟨[], .nil⟩

theorem growable_cons_iff : Growable g input above (symbol :: α) i k ↔
    ∃ j, Growable g input above [symbol] i j ∧ Growable g input above α j k := by
  constructor
  · rintro ⟨trees, h⟩
    obtain ⟨tree, rest, -, -, htree, hrest⟩ := h.exists_of_cons
    exact ⟨_, ⟨_, htree⟩, _, hrest⟩
  · rintro ⟨j, ⟨trees, htrees⟩, trees', htrees'⟩
    exact ⟨_, htrees.append htrees'⟩

theorem growable_nonterm_iff : Growable g input above [.nonterm id] i k ↔
    (⟨id, i, k⟩ : Goal) ∉ above ∧ ∃ rule ∈ g.alternativesOf id,
      Growable g input (⟨id, i, k⟩ :: above) (g.rule rule).body.toList i k := by
  constructor
  · rintro ⟨trees, h⟩
    cases h with
    | nonterm hrule hnew hbody hrest =>
      obtain ⟨rfl, -⟩ := Grows.nil_iff.1 hrest
      exact ⟨hnew, _, hrule, _, hbody⟩
  · rintro ⟨hnew, rule, hrule, children, hbody⟩
    exact ⟨_, .nonterm hrule hnew hbody .nil⟩

theorem Growable.spans (hg : g.WellFormed) (h : Growable g input above α i k) :
    g.Spans input α i k :=
  h.elim fun _ htrees => htrees.spans hg

end Growable

/-! ### Derivations of the least height -/

/-- Tells that symbols derive a part of the input with no more than a number of rules one inside
the other. -/
inductive SpansWithin (g : Grammar) (input : Array Char) : Nat → List Symbol → Nat → Nat → Prop
  | nil {height i : Nat} : SpansWithin g input height [] i i
  | terminal {height : Nat} {t : Terminal} {α : List Symbol} {i length k : Nat}
      (ht : t.matchAt input i = some length)
      (hrest : SpansWithin g input height α (i + length) k) :
      SpansWithin g input height (.terminal t :: α) i k
  | nonterm {height id rule : Nat} {α : List Symbol} {i j k : Nat}
      (hrule : rule ∈ g.alternativesOf id)
      (hbody : SpansWithin g input height (g.rule rule).body.toList i j)
      (hrest : SpansWithin g input (height + 1) α j k) :
      SpansWithin g input (height + 1) (.nonterm id :: α) i k

namespace SpansWithin

variable {g : Grammar} {input : Array Char} {above : List Goal} {α : List Symbol}
  {height height' i k id : Nat}

theorem mono (h : SpansWithin g input height α i k) (hle : height ≤ height') :
    SpansWithin g input height' α i k := by
  induction h generalizing height' with
  | nil => exact .nil
  | terminal ht _ ih => exact .terminal ht (ih hle)
  | nonterm hrule _ _ ihbody ihrest =>
    obtain ⟨n, rfl⟩ : ∃ n, height' = n + 1 := ⟨height' - 1, by omega⟩
    exact .nonterm hrule (ihbody (by omega)) (ihrest hle)

theorem exists_of_spans (hg : g.WellFormed) (h : g.Spans input α i k) :
    ∃ height, SpansWithin g input height α i k := by
  induction h with
  | nil => exact ⟨0, .nil⟩
  | terminal ht _ ih =>
    obtain ⟨height, hrest⟩ := ih
    exact ⟨height, .terminal ht hrest⟩
  | nonterm hindex _ _ ihbody ihrest =>
    obtain ⟨height, hbody⟩ := ihbody
    obtain ⟨height', hrest⟩ := ihrest
    exact ⟨max height height' + 1, .nonterm (hg.mem_alternativesOf_iff.2 ⟨hindex, rfl⟩)
      (hbody.mono (Nat.le_max_left _ _)) (hrest.mono (by omega))⟩

theorem nonterm_iff : SpansWithin g input height [.nonterm id] i k ↔
    ∃ height', height = height' + 1 ∧ ∃ rule ∈ g.alternativesOf id,
      SpansWithin g input height' (g.rule rule).body.toList i k := by
  constructor
  · intro h
    cases h with
    | nonterm hrule hbody hrest =>
      cases hrest
      exact ⟨_, rfl, _, hrule, hbody⟩
  · rintro ⟨height', rfl, rule, hrule, hbody⟩
    exact .nonterm hrule hbody .nil

/-- If the goals above need more height, there are admissible trees. The outer induction is on the
height: a goal is taken up with a derivation of its least height, so that it needs more height than
what is below it. -/
theorem growable (h : SpansWithin g input height α i k)
    (habove : ∀ goal ∈ above,
      ¬SpansWithin g input height [.nonterm goal.nonterm] goal.start goal.stop) :
    Growable g input above α i k := by
  induction height using Nat.strongRecOn generalizing α i k above with
  | ind height ih =>
    induction h with
    | nil => exact ⟨[], .nil⟩
    | terminal ht _ ihrest =>
      obtain ⟨trees, htrees⟩ := ihrest ih habove
      exact ⟨_, .terminal ht htrees⟩
    | @nonterm height id rule α i j k hrule hbody _ _ ihrest =>
      classical
      -- The derivation at hand may be higher than needed; the goal gets one of its least height.
      have hgoal : ∃ n, SpansWithin g input n [.nonterm id] i j := ⟨_, .nonterm hrule hbody .nil⟩
      have hle : Nat.find hgoal ≤ height + 1 := Nat.find_min' hgoal (.nonterm hrule hbody .nil)
      obtain ⟨least, hleast, rule', hrule', hbody'⟩ := nonterm_iff.1 (Nat.find_spec hgoal)
      have hchildren : Growable g input (⟨id, i, j⟩ :: above) (g.rule rule').body.toList i j := by
        refine ih least (by omega) hbody' fun goal hmem hspans => ?_
        rcases List.mem_cons.1 hmem with rfl | hmem
        · exact Nat.find_min hgoal (by omega) hspans
        · exact habove goal hmem (hspans.mono (by omega))
      have hnew : (⟨id, i, j⟩ : Goal) ∉ above := fun hmem =>
        habove _ hmem (.nonterm hrule hbody .nil)
      exact growable_cons_iff.2
        ⟨j, growable_nonterm_iff.2 ⟨hnew, rule', hrule', hchildren⟩, ihrest ih habove⟩

end SpansWithin

/-- **Whatever is derived has an admissible tree.** -/
theorem growable_of_spans {g : Grammar} (hg : g.WellFormed) {input : Array Char}
    {α : List Symbol} {i k : Nat} (h : g.Spans input α i k) : Growable g input [] α i k := by
  obtain ⟨height, h⟩ := SpansWithin.exists_of_spans hg h
  exact h.growable fun goal hmem => absurd hmem List.not_mem_nil

/-! ### Preferred trees -/

/-- The condition that a node has the first rule with admissible trees, and that its symbols reach
farther than in any other of them, the leftmost ones first. -/
structure Best (g : Grammar) (input : Array Char) (above : List Goal) (goal : Goal) (rule : Nat)
    (children : List ParseTree) : Prop where
  fresh : goal ∉ above
  first : ∃ before after, g.alternativesOf goal.nonterm = before ++ rule :: after ∧
    ∀ rule' ∈ before, ¬Growable g input (goal :: above) (g.rule rule').body.toList
      goal.start goal.stop
  farthest : ∀ trees, Admissible g input (goal :: above) (g.rule rule).body.toList
    goal.start goal.stop trees → trees.map (·.span.stop) = children.map (·.span.stop) ∨
      List.Lex (· < ·) (trees.map (·.span.stop)) (children.map (·.span.stop))

/-- Tells that `trees` are admissible, and the preferred ones at every node. -/
abbrev Preferred (g : Grammar) (input : Array Char) (above : List Goal) (α : List Symbol)
    (i k : Nat) (trees : List ParseTree) : Prop :=
  Grows g input (Best g input) above α i k trees

theorem Preferred.admissible {g : Grammar} {input : Array Char} {above : List Goal}
    {α : List Symbol} {i k : Nat} {trees : List ParseTree}
    (h : Preferred g input above α i k trees) : Admissible g input above α i k trees :=
  h.mono fun _ _ _ _ hbest => hbest.fresh

end Earley
