/-
  `Preference` — the tree of an input is the preferred one, at every node.

  What a node may be compared with is said here in terms of trees alone. A derivation tree is
  admissible below certain nodes if no node in it has the label of a node on the way up to its
  root, or of one of those above (`ParseTree.Unrepeated`). The labels that are passed on the way to
  a node name exactly the goals above which it has grown (`Grows.descend_passed`), and so that is
  the same as to grow without repeating a goal (`Grows.unrepeated`, `Grows.admissible`).

  Hence each node of a tree has the first rule with which an admissible tree begins, and among
  those trees its children reach farthest, the leftmost ones first (`parseTree_preferred`).
-/
import Earley.Proofs.Tree.Faithful

namespace Earley

namespace ParseTree

/-! ### Labels on the way down -/

/-- What a tree stands for, and where. -/
def label (t : ParseTree) : String × Span := (t.symbol, t.span)

/-- The labels of the trees that are passed on the way down along a path, the last one first. -/
def passed (t : ParseTree) : List Nat → List (String × Span)
  | [] => []
  | index :: path =>
    match t.children[index]? with
    | some child => child.passed path ++ [t.label]
    | none => []

/-- Tells that no node of a tree has the label of a node that is passed on the way down to it, or
one of `above`. -/
def Unrepeated (above : List (String × Span)) (t : ParseTree) : Prop :=
  ∀ path u, t.descend? path = some u → u.isLeaf = false → u.label ∉ t.passed path ++ above

/-- In a tree below another one, the label of that is not repeated, either. -/
theorem Unrepeated.child {above : List (String × Span)} {t child : ParseTree}
    (h : t.Unrepeated above) (hchild : child ∈ t.children) :
    child.Unrepeated (t.label :: above) := by
  obtain ⟨index, hindex⟩ := List.getElem?_of_mem hchild
  intro path u hpath hnode
  have hdescend : t.descend? (index :: path) = some u := by
    rw [descend?, hindex]
    exact hpath
  have hnew := h (index :: path) u hdescend hnode
  rw [passed, hindex] at hnew
  simpa using hnew

end ParseTree

/-- The label of the nodes that stand for a goal. -/
def Goal.label (g : Grammar) (goal : Goal) : String × Span :=
  (g.name goal.nonterm, ⟨goal.start, goal.stop⟩)

theorem Goal.label_injective {g : Grammar} (hg : g.WellFormed) {goal goal' : Goal}
    (hgoal : goal.nonterm < g.nonterms.size) (hgoal' : goal'.nonterm < g.nonterms.size)
    (h : goal.label g = goal'.label g) : goal = goal' := by
  obtain ⟨id, start, stop⟩ := goal
  obtain ⟨id', start', stop'⟩ := goal'
  simp only [label, Prod.mk.injEq, Span.mk.injEq] at h
  obtain ⟨hname, rfl, rfl⟩ := h
  obtain rfl : id = id' := hg.name_injective hgoal hgoal' hname
  rfl

/-- The condition that every node meets. -/
def Unconditional : NodeCondition := fun _ _ _ _ => True

namespace Grows

variable {g : Grammar} {input : Array Char} {P : NodeCondition} {above above' goals : List Goal}
  {symbol : Symbol} {α : List Symbol} {i k id : Nat} {tree tree' : ParseTree}
  {trees : List ParseTree}

/-! ### The goals above a node -/

theorem label_eq (h : Grows g input P above [.nonterm id] i k [tree]) :
    tree.label = Goal.label g ⟨id, i, k⟩ := by
  obtain ⟨rule, -, children, rfl, -⟩ := nonterm_iff.1 h
  rfl

theorem nonterm_lt (hg : g.WellFormed) (h : Grows g input P above [.nonterm id] i k [tree]) :
    id < g.nonterms.size := by
  obtain ⟨rule, hrule, -⟩ := nonterm_iff.1 h
  obtain ⟨hlt, rfl⟩ := hg.mem_alternativesOf_iff.1 hrule
  exact hg.head_rule_lt hlt

/-- What is reached by going down has grown above the goals of the nodes that are passed. -/
theorem descend_passed (hg : g.WellFormed) {path : List Nat}
    (h : Grows g input P above [symbol] i k [tree]) (hi : i ≤ input.size)
    (hpath : tree.descend? path = some tree') :
    ∃ goals symbol' i' k', goals.map (Goal.label g) = tree.passed path ∧
      (∀ goal ∈ goals, goal.nonterm < g.nonterms.size) ∧ i' ≤ input.size ∧
      Grows g input P (goals ++ above) [symbol'] i' k' [tree'] := by
  induction path generalizing tree above symbol i k with
  | nil =>
    obtain rfl := Option.some.inj hpath
    exact ⟨[], symbol, i, k, rfl, fun _ hgoal => absurd hgoal List.not_mem_nil, hi, h⟩
  | cons index path ih =>
    obtain ⟨child, hchild, hpath⟩ := Option.bind_eq_some_iff.1 hpath
    obtain ⟨id, rfl, symbol', i', k', hi', hgrows⟩ := h.exists_of_child hg hi hchild
    obtain ⟨goals, symbol'', i'', k'', hlabels, hlt, hi'', hgrows'⟩ := ih hgrows hi' hpath
    refine ⟨goals ++ [⟨id, i, k⟩], symbol'', i'', k'', ?_, ?_, hi'', ?_⟩
    · rw [ParseTree.passed, hchild, List.map_append, hlabels, h.label_eq]
      rfl
    · intro goal hgoal
      rcases List.mem_append.1 hgoal with hmem | hmem
      · exact hlt goal hmem
      · rw [List.mem_singleton.1 hmem]
        exact h.nonterm_lt hg
    · rwa [List.append_assoc]

/-- A node is a tree for a non-terminal. -/
theorem exists_nonterm_of_isLeaf (h : Grows g input P above [symbol] i k [tree])
    (hnode : tree.isLeaf = false) : ∃ id, symbol = .nonterm id := by
  cases h with
  | terminal => cases hnode
  | nonterm => exact ⟨_, rfl⟩

/-! ### Admissible trees by their labels -/

/-- Where no condition is put on the nodes, it does not matter what is above. -/
theorem unconditional (h : Grows g input P above' α i k trees) :
    Grows g input Unconditional above α i k trees := by
  induction h generalizing above with
  | nil => exact .nil
  | terminal ht _ ih => exact .terminal ht ih
  | nonterm hrule _ _ _ ihbody ihrest => exact .nonterm hrule trivial ihbody ihrest

/-- An admissible tree does not repeat a label on the way down. -/
theorem unrepeated (hg : g.WellFormed) (habove : ∀ goal ∈ above, goal.nonterm < g.nonterms.size)
    (h : Admissible g input above [symbol] i k [tree]) (hi : i ≤ input.size) :
    tree.Unrepeated (above.map (Goal.label g)) := by
  intro path u hpath hnode hmem
  obtain ⟨goals, symbol', i', k', hlabels, hlt, hi', hgrows⟩ := h.descend_passed hg hi hpath
  obtain ⟨id, rfl⟩ := hgrows.exists_nonterm_of_isLeaf hnode
  rw [← hlabels, ← List.map_append, hgrows.label_eq] at hmem
  obtain ⟨goal, hgoal, hlabel⟩ := List.mem_map.1 hmem
  have hgoal_lt : goal.nonterm < g.nonterms.size :=
    (List.mem_append.1 hgoal).elim (hlt goal) (habove goal)
  -- Equal labels are equal goals, and the goal of an admissible node is a new one.
  obtain rfl := Goal.label_injective hg hgoal_lt (hgrows.nonterm_lt hg) hlabel
  obtain ⟨rule, -, children, -, hnew, -⟩ := nonterm_iff.1 hgrows
  exact hnew hgoal

/-- Trees that repeat no label on the way down are admissible. -/
theorem admissible (h : Grows g input P above' α i k trees)
    (htrees : ∀ tree ∈ trees, tree.Unrepeated (above.map (Goal.label g))) :
    Admissible g input above α i k trees := by
  induction h generalizing above with
  | nil => exact .nil
  | terminal ht _ ih =>
    exact .terminal ht (ih fun tree hmem => htrees tree (List.mem_cons_of_mem _ hmem))
  | @nonterm above' id rule α i j k children trees hrule _ _ _ ihbody ihrest =>
    obtain ⟨hnode, htrees⟩ := List.forall_mem_cons.1 htrees
    have hnew : (⟨id, i, j⟩ : Goal) ∉ above := fun hmem =>
      hnode [] _ rfl rfl (List.mem_map_of_mem hmem)
    exact .nonterm hrule hnew (ihbody fun child hchild => hnode.child hchild) (ihrest htrees)

end Grows

/-! ### Admissible trees with a given rule -/

namespace ParseTree

/-- Tells that a tree is a derivation of a non-terminal over a span, with a given rule at its
root. -/
def DerivesBy (g : Grammar) (input : Array Char) (id rule : Nat) (span : Span)
    (t : ParseTree) : Prop :=
  rule ∈ g.alternativesOf id ∧ ∃ children,
    t = .node (g.name id) (g.ruleText rule) span children ∧
      Grows g input Unconditional [] (g.rule rule).body.toList span.start span.stop children

/-- Tells that a tree is a derivation by a rule, and that it may stand below nodes with the labels
`above`: no label is repeated on the way down, nor is one of those. -/
def AdmissibleBy (g : Grammar) (input : Array Char) (above : List (String × Span))
    (id rule : Nat) (span : Span) (t : ParseTree) : Prop :=
  t.DerivesBy g input id rule span ∧ t.Unrepeated above

/-- Where the children of a node end. -/
def ends (t : ParseTree) : List Nat := t.children.map (·.span.stop)

/-- Tells that a tree is the preferred one for a non-terminal over a span, below nodes with the
labels `above`. -/
structure PreferredBy (g : Grammar) (input : Array Char) (above : List (String × Span))
    (id rule : Nat) (span : Span) (t : ParseTree) : Prop where
  admissible : t.AdmissibleBy g input above id rule span
  /-- No rule that is declared before has an admissible tree. -/
  first : ∃ before after, g.alternativesOf id = before ++ rule :: after ∧
    ∀ rule' ∈ before, ∀ u : ParseTree, ¬u.AdmissibleBy g input above id rule' span
  /-- In any other tree with the rule, the first child that ends elsewhere ends nearer. -/
  farthest : ∀ u : ParseTree, u.AdmissibleBy g input above id rule span →
    u.ends = t.ends ∨ List.Lex (· < ·) u.ends t.ends

end ParseTree

section AdmissibleBy

variable {g : Grammar} {input : Array Char} {goals : List Goal} {id rule i k : Nat}
  {tree : ParseTree} {children : List ParseTree}

/-- The admissible trees with a rule are the nodes over admissible trees for its body. -/
theorem admissibleBy_iff (hg : g.WellFormed)
    (hgoals : ∀ goal ∈ goals, goal.nonterm < g.nonterms.size) (hi : i ≤ input.size)
    (hrule : rule ∈ g.alternativesOf id) :
    tree.AdmissibleBy g input (goals.map (Goal.label g)) id rule ⟨i, k⟩ ↔
      (⟨id, i, k⟩ : Goal) ∉ goals ∧ ∃ children,
        tree = .node (g.name id) (g.ruleText rule) ⟨i, k⟩ children ∧
          Admissible g input (⟨id, i, k⟩ :: goals) (g.rule rule).body.toList i k children := by
  constructor
  · rintro ⟨⟨-, children, rfl, hbody⟩, hunrepeated⟩
    refine ⟨fun hmem => hunrepeated [] _ rfl rfl (List.mem_map_of_mem hmem), children, rfl, ?_⟩
    exact hbody.admissible fun child hchild => hunrepeated.child hchild
  · rintro ⟨hnew, children, rfl, hbody⟩
    have hnode : Admissible g input goals [.nonterm id] i k
        [.node (g.name id) (g.ruleText rule) ⟨i, k⟩ children] :=
      Grows.nonterm_iff.2 ⟨rule, hrule, children, rfl, hnew, hbody⟩
    exact ⟨⟨hrule, children, rfl, hbody.unconditional⟩, hnode.unrepeated hg hgoals hi⟩

/-- A node over preferred trees that is the best one for its goal is the preferred tree. -/
theorem preferredBy_of_best (hg : g.WellFormed)
    (hgoals : ∀ goal ∈ goals, goal.nonterm < g.nonterms.size) (hi : i ≤ input.size)
    (hrule : rule ∈ g.alternativesOf id) (hbest : Best g input goals ⟨id, i, k⟩ rule children)
    (hbody : Preferred g input (⟨id, i, k⟩ :: goals) (g.rule rule).body.toList i k children) :
    (ParseTree.node (g.name id) (g.ruleText rule) ⟨i, k⟩ children).PreferredBy g input
      (goals.map (Goal.label g)) id rule ⟨i, k⟩ where
  admissible :=
    (admissibleBy_iff hg hgoals hi hrule).2 ⟨hbest.fresh, children, rfl, hbody.admissible⟩
  first := by
    obtain ⟨before, after, halternatives, hfirst⟩ := hbest.first
    refine ⟨before, after, halternatives, fun rule' hmem u hu => ?_⟩
    have hrule' : rule' ∈ g.alternativesOf id := by
      rw [halternatives]
      exact List.mem_append_left _ hmem
    obtain ⟨-, children', -, hchildren⟩ := (admissibleBy_iff hg hgoals hi hrule').1 hu
    exact hfirst rule' hmem ⟨children', hchildren⟩
  farthest u hu := by
    obtain ⟨-, children', rfl, hchildren⟩ := (admissibleBy_iff hg hgoals hi hrule).1 hu
    exact hbest.farthest children' hchildren

end AdmissibleBy

/-- **The tree of an input is the preferred one.** An input that is accepted has a tree. Every node
of it has the first rule with which an admissible tree for its non-terminal over its span begins,
where the labels of the nodes above it count as repeated; and of the admissible trees that begin
with this rule, it is one whose children reach farthest, the leftmost ones first. -/
theorem parseTree_preferred {steps : List Step} {start : String} {g : Grammar}
    (h : Grammar.build steps start = .ok g) {input : List Char} {chart : Chart}
    (hparse : g.parse input = .ok chart) :
    ∃ tree, chart.tree = .ok tree ∧
      ∀ path node, tree.descend? path = some node → node.isLeaf = false →
        ∃ id rule,
          node.PreferredBy g input.toArray (tree.passed path) id rule node.span := by
  have hg := Grammar.wellFormed_of_build h
  have hgenerates := Grammar.generates_of_parse hg hparse
  obtain rfl := Grammar.parse_eq_ofInput hparse
  obtain ⟨tree, htree, hpreferred⟩ :=
    Chart.exists_tree_of_generates hg input.toArray hgenerates
  refine ⟨tree, htree, fun path node hpath hnode => ?_⟩
  obtain ⟨goals, symbol, i, k, hlabels, hgoals, hi, hgrows⟩ :=
    hpreferred.descend_passed hg (Nat.zero_le _) hpath
  rw [List.append_nil] at hgrows
  obtain ⟨id, rfl⟩ := hgrows.exists_nonterm_of_isLeaf hnode
  obtain ⟨rule, hrule, children, rfl, hbest, hbody⟩ := Grows.nonterm_iff.1 hgrows
  rw [← hlabels]
  exact ⟨id, rule, preferredBy_of_best hg hgoals hi hrule hbest hbody⟩

/-- The tree of an input of an ambiguous and cyclic grammar. -/
theorem parseTree_preferred_doublingSteps :
    ∃ g chart tree, Grammar.build Grammar.doublingSteps "S" = .ok g ∧
      g.parse ['a', 'a'] = .ok chart ∧ chart.tree = .ok tree ∧
      ∀ path node, tree.descend? path = some node → node.isLeaf = false →
        ∃ id rule, node.PreferredBy g #['a', 'a'] (tree.passed path) id rule node.span := by
  obtain ⟨g, hbuild, hparse⟩ := Grammar.exists_parse_doublingSteps
  obtain ⟨tree, htree, hnodes⟩ := parseTree_preferred hbuild hparse
  exact ⟨g, _, tree, hbuild, hparse, htree, hnodes⟩

end Earley
