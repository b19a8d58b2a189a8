/-
  `Faithful` — a tree is a derivation of its input.

  Whatever is reached in a tree by going down from the root has grown over a part of the input,
  with the goals of the nodes passed on the way among those above it (`Grows.descend`). So what
  the growth of a tree says of its root holds of every node: the children stand for the symbols of
  its rule, they tile its span, and its goal is none of those above it. The texts of the leaves,
  in the order of the walk, are the slice that the tree has grown over (`Grows.walk_text`).
-/
import Earley.Proofs.Tree.Rebuild

namespace Earley

namespace ParseTree

/-- Tells that a tree stands for a symbol of a rule: a leaf with the terminal and the part of the
input that it matches, or a node with the name of the non-terminal. -/
def StandsFor (g : Grammar) (input : Array Char) (t : ParseTree) : Symbol → Prop
  | .terminal u => ∃ span : Span, span.start ≤ span.stop ∧ span.stop ≤ input.size ∧
      u.Matches (slice input span.start span.stop) ∧
        t = .leaf u.display (String.ofList (slice input span.start span.stop)) span
  | .nonterm id => t.isLeaf = false ∧ t.symbol = g.name id

/-- Tells that trees cover the part of the input from `i` to `k`, one behind the other. -/
def Tile : Nat → Nat → List ParseTree → Prop
  | i, k, [] => i = k
  | i, k, t :: trees => t.span.start = i ∧ Tile t.span.stop k trees

theorem descend?_append (t : ParseTree) (path path' : List Nat) :
    t.descend? (path ++ path') = (t.descend? path).bind fun u => u.descend? path' := by
  induction path generalizing t with
  | nil => rfl
  | cons index path ih =>
    rw [List.cons_append, descend?, descend?]
    cases t.children[index]? with
    | none => rfl
    | some child => exact ih child

theorem labelled_unit (trees : List ParseTree) :
    labelled (fun _ _ => ()) () trees = trees.map (Prod.mk ()) := by
  fun_induction labelled (fun _ _ => ()) () trees with
  | case1 => rfl
  | case2 => rfl
  | case3 t trees _ ih => rw [ih, List.map_cons]

end ParseTree

namespace Grows

variable {g : Grammar} {input : Array Char} {P : NodeCondition} {above : List Goal}
  {symbol : Symbol} {α : List Symbol} {i k : Nat} {tree tree' : ParseTree}
  {trees : List ParseTree}

/-! ### Going down -/

theorem exists_of_mem (hg : g.WellFormed) (h : Grows g input P above α i k trees)
    (hi : i ≤ input.size) (hmem : tree ∈ trees) :
    ∃ symbol i k, i ≤ input.size ∧ Grows g input P above [symbol] i k [tree] := by
  induction h with
  | nil => exact absurd hmem List.not_mem_nil
  | terminal ht _ ih =>
    rcases List.mem_cons.1 hmem with rfl | hmem
    · exact ⟨_, _, _, hi, .terminal ht .nil⟩
    · exact ih ((Terminal.matchAt_eq_some_iff hi).1 ht).1 hmem
  | nonterm hrule hnode hbody _ _ ih =>
    rcases List.mem_cons.1 hmem with rfl | hmem
    · exact ⟨_, _, _, hi, .nonterm hrule hnode hbody .nil⟩
    · exact ih ((hbody.spans hg).generates hi).2.1 hmem

/-- A tree right below the root has grown with the goal of the root above it. -/
theorem exists_of_child (hg : g.WellFormed) {index : Nat} {child : ParseTree}
    (h : Grows g input P above [symbol] i k [tree]) (hi : i ≤ input.size)
    (hchild : tree.children[index]? = some child) :
    ∃ id, symbol = .nonterm id ∧ ∃ symbol' i' k', i' ≤ input.size ∧
      Grows g input P (⟨id, i, k⟩ :: above) [symbol'] i' k' [child] := by
  cases h with
  | terminal => simp [ParseTree.children] at hchild
  | nonterm hrule hnode hbody hrest =>
    obtain ⟨rfl, -⟩ := nil_iff.1 hrest
    exact ⟨_, rfl, hbody.exists_of_mem hg hi (List.mem_of_getElem? hchild)⟩

/-- Whatever is reached by going down has grown with all those goals above it that the tree has,
and more. -/
theorem descend (hg : g.WellFormed) {path : List Nat}
    (h : Grows g input P above [symbol] i k [tree]) (hi : i ≤ input.size)
    (hpath : tree.descend? path = some tree') :
    ∃ above' symbol' i' k', above ⊆ above' ∧ i' ≤ input.size ∧
      Grows g input P above' [symbol'] i' k' [tree'] := by
  induction path generalizing tree above symbol i k with
  | nil =>
    obtain rfl := Option.some.inj hpath
    exact ⟨above, symbol, i, k, List.Subset.refl _, hi, h⟩
  | cons index path ih =>
    obtain ⟨child, hchild, hpath⟩ := Option.bind_eq_some_iff.1 hpath
    obtain ⟨id, -, symbol', i', k', hi', hgrows⟩ := h.exists_of_child hg hi hchild
    obtain ⟨above', symbol'', i'', k'', hsub, hi'', hgrows'⟩ := ih hgrows hi' hpath
    exact ⟨above', symbol'', i'', k'', fun goal hgoal => hsub (List.mem_cons_of_mem _ hgoal),
      hi'', hgrows'⟩

/-! ### What a tree says -/

theorem tile (h : Grows g input P above α i k trees) : ParseTree.Tile i k trees := by
  induction h with
  | nil => rfl
  | terminal _ _ ih => exact ⟨rfl, ih⟩
  | nonterm _ _ _ _ _ ih => exact ⟨rfl, ih⟩

theorem standsFor (hg : g.WellFormed) (h : Grows g input P above α i k trees)
    (hi : i ≤ input.size) :
    List.Forall₂ (fun symbol child => child.StandsFor g input symbol) α trees := by
  induction h with
  | nil => exact .nil
  | @terminal above t α i length k trees ht _ ih =>
    obtain ⟨hle, hmatch⟩ := (Terminal.matchAt_eq_some_iff hi).1 ht
    exact .cons ⟨⟨i, i + length⟩, Nat.le_add_right _ _, hle, hmatch, rfl⟩ (ih hle)
  | nonterm _ _ hbody _ _ ih =>
    exact .cons ⟨rfl, rfl⟩ (ih ((hbody.spans hg).generates hi).2.1)

/-- The walk over trees collects the part of the input that they have grown over. -/
theorem walk_text (hg : g.WellFormed) (h : Grows g input P above α i k trees)
    (hi : i ≤ input.size) (out : String) (rest : List (Unit × ParseTree)) :
    ParseTree.walk (fun _ _ => ()) (fun out _ t => if t.isLeaf then out ++ t.content else out) out
        (trees.map (Prod.mk ()) ++ rest) =
      ParseTree.walk (fun _ _ => ())
        (fun out _ t => if t.isLeaf then out ++ t.content else out)
        (out ++ String.ofList (slice input i k)) rest := by
  induction h generalizing out rest with
  | nil => simp [slice_self]
  | @terminal above t α i length k trees ht hrest ih =>
    have hle := ((Terminal.matchAt_eq_some_iff hi).1 ht).1
    have hjk := ((hrest.spans hg).generates hle).1
    rw [List.map_cons, List.cons_append, ParseTree.walk, ParseTree.labelled_unit]
    -- A leaf has no children, and its text is collected at once.
    show ParseTree.walk _ _ (out ++ String.ofList (slice input i (i + length)))
      (trees.map (Prod.mk ()) ++ rest) = _
    rw [ih hle, String.append_assoc, ← String.ofList_append,
      slice_append_slice (Nat.le_add_right _ _) hjk]
  | @nonterm above id rule α i j k children trees _ _ hbody hrest ihbody ihrest =>
    obtain ⟨hij, hj, -⟩ := (hbody.spans hg).generates hi
    have hjk := ((hrest.spans hg).generates hj).1
    rw [List.map_cons, List.cons_append, ParseTree.walk, ParseTree.labelled_unit]
    -- The children of a node go in front of what is still to be walked over.
    show ParseTree.walk _ _ out
      (children.map (Prod.mk ()) ++ (trees.map (Prod.mk ()) ++ rest)) = _
    rw [ihbody hi, ihrest hj, String.append_assoc, ← String.ofList_append,
      slice_append_slice hij hjk]

theorem text_eq (hg : g.WellFormed) (h : Grows g input P above [symbol] i k [tree])
    (hi : i ≤ input.size) : tree.text = String.ofList (slice input i k) := by
  have hwalk := h.walk_text hg hi "" []
  rw [ParseTree.text]
  simpa [ParseTree.walk] using hwalk

/-- A node has a rule of the grammar, and a child for each symbol of it. -/
theorem exists_rule (hg : g.WellFormed) {head rule : String} {span : Span}
    {children : List ParseTree}
    (h : Grows g input P above [symbol] i k [.node head rule span children])
    (hi : i ≤ input.size) :
    ∃ index < g.rules.size, head = g.name (g.rule index).head ∧ rule = g.ruleText index ∧
      List.Forall₂ (fun symbol child => child.StandsFor g input symbol)
        (g.rule index).body.toList children ∧
      ParseTree.Tile span.start span.stop children := by
  cases h with
  | nonterm hrule _ hbody _ =>
    obtain ⟨hlt, rfl⟩ := hg.mem_alternativesOf_iff.1 hrule
    exact ⟨_, hlt, rfl, rfl, hbody.standsFor hg hi, hbody.tile⟩

/-- The goal of a node is none of those that have been above it when it grew. -/
theorem ne_of_mem (hg : g.WellFormed) {head rule : String} {span : Span}
    {children : List ParseTree}
    (h : Admissible g input above [symbol] i k [.node head rule span children]) {goal : Goal}
    (hmem : goal ∈ above) (hgoal : goal.nonterm < g.nonterms.size) :
    (g.name goal.nonterm, (⟨goal.start, goal.stop⟩ : Span)) ≠ (head, span) := by
  cases h with
  | @nonterm above id index α i j k children trees hrule hnew hbody hrest =>
    obtain ⟨hlt, rfl⟩ := hg.mem_alternativesOf_iff.1 hrule
    -- Names determine non-terminals, so equal labels are equal goals.
    intro heq
    simp only [Prod.mk.injEq, Span.mk.injEq] at heq
    obtain ⟨hname, hstart, hstop⟩ := heq
    apply hnew
    rwa [← hg.name_injective hgoal (hg.head_rule_lt hlt) hname, ← hstart, ← hstop]

end Grows

/-- **Every tree is a derivation of the input.** Its root is the start symbol over the whole
input. Every node has the text of a rule of its head, and a child that stands for each symbol of
the rule, and the children tile its span. No path down meets a non-terminal over the same span
twice. And so the texts of the leaves make up the input. -/
theorem parseTree_faithful {steps : List Step} {start : String} {g : Grammar}
    (h : Grammar.build steps start = .ok g) {input : List Char} {tree : ParseTree}
    (htree : g.parseTree input = .ok tree) :
    (tree.isLeaf = false ∧ tree.symbol = g.startName ∧ tree.span = ⟨0, input.length⟩) ∧
      (∀ path head rule span children,
        tree.descend? path = some (.node head rule span children) →
          ∃ index < g.rules.size, head = g.name (g.rule index).head ∧ rule = g.ruleText index ∧
            List.Forall₂ (fun symbol child => child.StandsFor g input.toArray symbol)
              (g.rule index).body.toList children ∧
            ParseTree.Tile span.start span.stop children) ∧
      (∀ path path' head rule span children head' rule' span' children', path' ≠ [] →
        tree.descend? path = some (.node head rule span children) →
          tree.descend? (path ++ path') = some (.node head' rule' span' children') →
            (head, span) ≠ (head', span')) ∧
      tree.text = String.ofList input := by
  have hg := Grammar.wellFormed_of_build h
  have hgrows := (Grammar.preferred_of_parseTree hg htree).admissible
  have hzero : 0 ≤ input.toArray.size := Nat.zero_le _
  refine ⟨?_, ?_, ?_, ?_⟩
  · obtain ⟨rule, -, children, rfl, -⟩ := Grows.nonterm_iff.1 hgrows
    exact ⟨rfl, rfl, rfl⟩
  · intro path head rule span children hpath
    obtain ⟨above, symbol, i, k, -, hi, hnode⟩ := hgrows.descend hg hzero hpath
    exact hnode.exists_rule hg hi
  · intro path path' head rule span children head' rule' span' children' hne hpath hpath'
    rw [ParseTree.descend?_append, hpath, Option.bind_some] at hpath'
    obtain ⟨above, symbol, i, k, -, hi, hnode⟩ := hgrows.descend hg hzero hpath
    cases path' with
    | nil => exact absurd rfl hne
    | cons index path' =>
      -- Below the first node its goal is among those above, and it stays there further down.
      obtain ⟨child, hchild, hbelow⟩ := Option.bind_eq_some_iff.1 hpath'
      obtain ⟨id, rfl, symbol', i', k', hi', hgrows'⟩ := hnode.exists_of_child hg hi hchild
      obtain ⟨above', symbol'', i'', k'', hsub, -, hnode'⟩ := hgrows'.descend hg hi' hbelow
      obtain ⟨rule', hrule', children', heq, -⟩ := Grows.nonterm_iff.1 hnode
      obtain ⟨hlt, rfl⟩ := hg.mem_alternativesOf_iff.1 hrule'
      cases heq
      exact hnode'.ne_of_mem hg (hsub List.mem_cons_self) (hg.head_rule_lt hlt)
  · rw [hgrows.text_eq hg hzero]
    congr 1
    exact slice_zero_size input.toArray

/-- The tree of an input of an ambiguous and cyclic grammar. -/
theorem parseTree_faithful_doublingSteps :
    ∃ g tree, Grammar.build Grammar.doublingSteps "S" = .ok g ∧
      g.parseTree ['a', 'a'] = .ok tree ∧
      (tree.isLeaf = false ∧ tree.symbol = g.startName ∧ tree.span = ⟨0, 2⟩) ∧
      (∀ path head rule span children,
        tree.descend? path = some (.node head rule span children) →
          ∃ index < g.rules.size, head = g.name (g.rule index).head ∧ rule = g.ruleText index ∧
            List.Forall₂ (fun symbol child => child.StandsFor g #['a', 'a'] symbol)
              (g.rule index).body.toList children ∧
            ParseTree.Tile span.start span.stop children) ∧
      (∀ path path' head rule span children head' rule' span' children', path' ≠ [] →
        tree.descend? path = some (.node head rule span children) →
          tree.descend? (path ++ path') = some (.node head' rule' span' children') →
            (head, span) ≠ (head', span')) ∧
      tree.text = String.ofList ['a', 'a'] := by
  obtain ⟨g, hbuild, hstart, -, hrules⟩ := Grammar.exists_build_doublingSteps
  obtain ⟨tree, htree⟩ := Grammar.exists_parseTree (Grammar.wellFormed_of_build hbuild)
    (Grammar.generates_doubling hstart hrules)
  exact ⟨g, tree, hbuild, htree, parseTree_faithful hbuild htree⟩

end Earley
