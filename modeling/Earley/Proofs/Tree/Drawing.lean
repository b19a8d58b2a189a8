/-
  A drawing is what would be drawn by recursion.

  `render` draws a tree behind its indent and hands a longer indent to each child. A drawing has
  one indent only, that of its last line, and pending trees cut theirs out of it. They can do so
  because those further back keep no more of it than those before them (`Hung`): what is cut off
  when a tree has its turn belongs to none of the others, and what its children put behind it is
  cut off again. Every line leaves the pending trees like that (`Hung.next`), so they are drawn as
  they would be rendered (`drawFrom_eq`), and a whole tree is, too (`draw_eq_render`).
-/
import Earley.Tree.Drawing

namespace Earley

namespace ParseTree

/-! ### Drawing by recursion -/

mutual

/-- The lines of a tree, whose indent is given. -/
def render : ParseTree → (indent : String) → String
  | leaf terminal text _, indent =>
    indent ++ "`-- " ++ terminal ++ " ==> " ++ quoteText text ++ "\n"
  | node _ rule _ children, indent =>
    indent ++ "`-- " ++ rule ++ "\n" ++ renderAll children indent

/-- The lines of the children of a node, whose own indent is given. -/
def renderAll : List ParseTree → (indent : String) → String
  | [], _ => ""
  | [t], indent => render t (indent ++ "   ")
  | t :: trees, indent => render t (indent ++ "  |") ++ renderAll trees indent

end

/-- A tree has its own line, and then those of its children. -/
theorem append_render (drawing : String) (t : ParseTree) (indent : String) :
    drawing ++ t.render indent = drawLine drawing indent t ++ renderAll t.children indent := by
  cases t with
  | leaf terminal text span =>
    simp only [render, drawLine, caption, children, renderAll, String.append_assoc,
      String.append_empty]
  | node head rule span children =>
    simp only [render, drawLine, caption, ParseTree.children, String.append_assoc]

/-- The lines of pending trees, one tree behind the other. -/
def renderPending (last : String) (pending : List (Margin × ParseTree)) : String :=
  String.join (pending.map fun p => p.2.render (p.1.indent last))

theorem renderPending_cons (last : String) (p : Margin × ParseTree)
    (pending : List (Margin × ParseTree)) :
    renderPending last (p :: pending) =
      p.2.render (p.1.indent last) ++ renderPending last pending := by
  rw [renderPending, List.map_cons, String.join_cons]
  rfl

theorem renderPending_singleton (last : String) (p : Margin × ParseTree) :
    renderPending last [p] = p.2.render (p.1.indent last) := by
  rw [renderPending_cons]
  exact String.append_empty

theorem renderPending_append (last : String) (pending pending' : List (Margin × ParseTree)) :
    renderPending last (pending ++ pending') =
      renderPending last pending ++ renderPending last pending' := by
  rw [renderPending, List.map_append, String.join_append]
  rfl

/-! ### Margins -/

namespace Margin

variable {margin margin' : Margin} {last : String}

/-- A tree whose parent had the last line puts something behind the whole of it. -/
theorem indent_length (last added : String) : indent ⟨last.length, added⟩ last = last ++ added := by
  rw [indent, List.take_of_length_le (Nat.le_of_eq String.length_toList), String.ofList_toList]

theorem kept_le_length_indent (h : margin.kept ≤ last.length) :
    margin.kept ≤ (margin.indent last).length := by
  have hlength : (last.toList.take margin.kept).length = margin.kept := by
    rw [List.length_take, String.length_toList, Nat.min_eq_left h]
  rw [indent, String.length_append, String.length_ofList, hlength]
  exact Nat.le_add_right _ _

/-- A margin that keeps less than another one finds the same after it. -/
theorem indent_indent (hle : margin'.kept ≤ margin.kept) (h : margin.kept ≤ last.length) :
    margin'.indent (margin.indent last) = margin'.indent last := by
  have hkept : margin'.kept ≤ (last.toList.take margin.kept).length := by
    rw [List.length_take, String.length_toList]
    omega
  have htake : (margin.indent last).toList.take margin'.kept = last.toList.take margin'.kept := by
    rw [indent, String.toList_append, String.toList_ofList, List.take_append_of_le_length hkept,
      List.take_take, Nat.min_eq_left hle]
  rw [indent, htake, indent]

end Margin

/-- The label of a child is made from that of its parent. -/
theorem exists_label_of_mem_labelled {α : Type} {label : α → Bool → α} {parent : α}
    {trees : List ParseTree} {p : α × ParseTree} (h : p ∈ labelled label parent trees) :
    ∃ last, p.1 = label parent last := by
  fun_induction labelled label parent trees with
  | case1 => cases h
  | case2 t =>
    obtain rfl := List.mem_singleton.1 h
    exact ⟨true, rfl⟩
  | case3 t trees _ ih =>
    rcases List.mem_cons.1 h with rfl | h
    · exact ⟨false, rfl⟩
    · exact ih h

/-- The children of the tree that had the last line are rendered behind the whole of it. -/
theorem renderPending_labelled (last : String) (margin : Margin) (trees : List ParseTree) :
    renderPending last (labelled (fun _ b => ⟨last.length, stepBelow b⟩) margin trees) =
      renderAll trees last := by
  fun_induction labelled (fun _ b => (⟨last.length, stepBelow b⟩ : Margin)) margin trees with
  | case1 => rfl
  | case2 t =>
    rw [renderPending_singleton, Margin.indent_length, renderAll]
    rfl
  | case3 t trees hne ih =>
    rw [renderPending_cons, Margin.indent_length, ih, renderAll]
    · rfl
    · exact hne

/-! ### Pending trees -/

/-- Tells that the pending trees find their indents in that of the last line: none keeps more than
there is of it, nor more than one that comes before. -/
structure Hung (last : String) (pending : List (Margin × ParseTree)) : Prop where
  kept_le : ∀ p ∈ pending, p.1.kept ≤ last.length
  pairwise : pending.Pairwise fun p q => q.1.kept ≤ p.1.kept

variable {last : String} {margin : Margin} {t : ParseTree} {pending : List (Margin × ParseTree)}

/-- A line takes nothing away from the indents of the trees that come later. -/
theorem Hung.renderPending_eq (h : Hung last ((margin, t) :: pending)) :
    renderPending (margin.indent last) pending = renderPending last pending := by
  have hmargin : margin.kept ≤ last.length := h.kept_le _ (List.mem_cons_self ..)
  have hpending := (List.pairwise_cons.1 h.pairwise).1
  rw [renderPending, renderPending]
  congr 1
  refine List.map_congr_left fun p hp => ?_
  rw [Margin.indent_indent (hpending p hp) hmargin]

/-- When a tree has had its line, its children and the other trees find their indents. -/
theorem Hung.next (h : Hung last ((margin, t) :: pending)) :
    Hung (margin.indent last)
      (labelled (fun _ b => ⟨(margin.indent last).length, stepBelow b⟩) margin t.children ++
        pending) := by
  obtain ⟨hpending, hpairwise⟩ := List.pairwise_cons.1 h.pairwise
  have hmargin : margin.kept ≤ (margin.indent last).length :=
    Margin.kept_le_length_indent (h.kept_le _ (List.mem_cons_self ..))
  have hchildren : ∀ p ∈ labelled (fun _ b => ⟨(margin.indent last).length, stepBelow b⟩) margin
      t.children, p.1.kept = (margin.indent last).length := by
    intro p hp
    obtain ⟨b, hb⟩ := exists_label_of_mem_labelled hp
    rw [hb]
  -- The tree itself kept at least as much as those behind it, and its line keeps all of that.
  have hothers : ∀ q ∈ pending, q.1.kept ≤ (margin.indent last).length :=
    fun q hq => Nat.le_trans (hpending q hq) hmargin
  constructor
  · intro p hp
    rcases List.mem_append.1 hp with hp | hp
    · exact Nat.le_of_eq (hchildren p hp)
    · exact hothers p hp
  · rw [List.pairwise_append]
    refine ⟨?_, hpairwise, fun p hp q hq => ?_⟩
    · refine List.pairwise_of_forall_mem_list fun p hp q hq => ?_
      exact Nat.le_of_eq ((hchildren q hq).trans (hchildren p hp).symm)
    · rw [hchildren p hp]
      exact hothers q hq

/-- The rest of a drawing is what the pending trees render to. -/
theorem drawFrom_eq (drawing : String) (h : Hung last pending) :
    drawFrom drawing last pending = drawing ++ renderPending last pending := by
  fun_induction drawFrom drawing last pending with
  | case1 => exact String.append_empty.symm
  | case2 drawing last margin t pending indent ih =>
    -- The rest is hung on the line of `t`, but what is pending renders as it did before that line.
    rw [ih h.next, renderPending_append, renderPending_labelled, ← String.append_assoc,
      ← append_render, h.renderPending_eq, String.append_assoc, renderPending_cons]

/-- **A drawing is what would be drawn by recursion**, whatever the shape of the tree: behind the
indent of a node the lines of its children follow in order, the last of them behind blanks and all
others behind a bar. -/
theorem draw_eq_render (t : ParseTree) : t.draw = t.render "" := by
  have hroot : Hung "" [((⟨0, ""⟩ : Margin), t)] :=
    ⟨fun p hp => by obtain rfl := List.mem_singleton.1 hp; exact Nat.le_refl _,
      List.pairwise_singleton _ _⟩
  have hindent : (⟨0, ""⟩ : Margin).indent "" = "" := rfl
  rw [draw, drawFrom_eq "" hroot, String.empty_append, renderPending_singleton, hindent]

example : (node "S" "S -> \"a\" B" ⟨0, 2⟩ [leaf "\"a\"" "a" ⟨0, 1⟩,
      node "B" "B -> 'b'...'c'" ⟨1, 2⟩ [leaf "'b'...'c'" "b" ⟨1, 2⟩]]).draw =
    "`-- S -> \"a\" B\n" ++
    "  |`-- \"a\" ==> \"a\"\n" ++
    "   `-- B -> 'b'...'c'\n" ++
    "      `-- 'b'...'c' ==> \"b\"\n" := by
  cbv

end ParseTree

end Earley
