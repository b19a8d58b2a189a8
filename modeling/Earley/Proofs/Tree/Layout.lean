/-
  `Layout` — what is known of a rule that is being laid over a span.

  The ends that are left for a symbol are descending, and no end with which the goal could still
  be met has been used up (`EndsLeft`). That holds of the next symbol, and it held of each symbol
  that is laid when its end was chosen (`LaidOut`). So when the ends of a symbol run out, the one
  before it has to be laid over a shorter stretch (`Sound.takeBack`), and when a rule is laid to
  its end, its symbols reach as far as they can, the leftmost ones first (`LaidOut.farthest`).

  Nothing of this depends on how the trees of the symbols are found: each of them only has to be
  the preferred one for its stretch.
-/
import Earley.Proofs.Tree.Extents
import Earley.Proofs.Tree.Growth
import Mathlib.Data.List.Lex

namespace Earley

/-! ### The ends that are left -/

/-- Tells of the ends that are left for `symbol` at `pos`, with `todo` behind it up to `limit`, that
they are descending from the limit, and that every end is among them that leaves room for trees. -/
structure EndsLeft (g : Grammar) (input : Array Char) (above : List Goal) (limit : Nat)
    (symbol : Symbol) (todo : List Symbol) (pos : Nat) (stops : List Nat) : Prop where
  sorted : stops.Pairwise (· > ·)
  spans : ∀ stop ∈ stops, g.Spans input [symbol] pos stop
  le_limit : ∀ stop ∈ stops, stop ≤ limit
  mem : ∀ stop, Growable g input above [symbol] pos stop →
    Growable g input above todo stop limit → stop ∈ stops

namespace EndsLeft

variable {g : Grammar} {input : Array Char} {above : List Goal} {limit pos stop : Nat}
  {symbol : Symbol} {todo : List Symbol} {stops : List Nat}

/-- An end that leaves no room may be used up. -/
theorem tail (h : EndsLeft g input above limit symbol todo pos (stop :: stops))
    (hstop : ¬(Growable g input above [symbol] pos stop ∧
      Growable g input above todo stop limit)) :
    EndsLeft g input above limit symbol todo pos stops where
  sorted := h.sorted.of_cons
  spans stop' hstop' := h.spans stop' (List.mem_cons_of_mem _ hstop')
  le_limit stop' hstop' := h.le_limit stop' (List.mem_cons_of_mem _ hstop')
  mem stop' hsymbol htodo := by
    rcases List.mem_cons.1 (h.mem stop' hsymbol htodo) with rfl | hmem
    · exact absurd ⟨hsymbol, htodo⟩ hstop
    · exact hmem

/-- The ends behind the first one are nearer. -/
theorem lt_of_mem (h : EndsLeft g input above limit symbol todo pos (stop :: stops)) {stop' : Nat}
    (hmem : stop' ∈ stops) : stop' < stop :=
  List.rel_of_pairwise_cons h.sorted hmem

/-- Without ends there are no trees. -/
theorem not_growable (h : EndsLeft g input above limit symbol todo pos []) :
    ¬Growable g input above (symbol :: todo) pos limit := by
  rw [growable_cons_iff]
  rintro ⟨stop, hsymbol, htodo⟩
  exact List.not_mem_nil (h.mem stop hsymbol htodo)

/-- Before any trial, all candidates are left. -/
theorem candidates (hg : g.WellFormed) (hpos : pos ≤ input.size)
    (hbegins : ∀ id, symbol = .nonterm id → g.Begins input id pos) :
    EndsLeft g input above limit symbol todo pos
      ((Extents.ofInput g input).candidates symbol pos limit).toList where
  sorted := Extents.pairwise_toList_candidates
  spans stop hstop :=
    (Extents.covers_iff_spans hg hpos hbegins).1 (Extents.mem_toList_candidates_iff.1 hstop).2
  le_limit stop hstop := (Extents.mem_toList_candidates_iff.1 hstop).1
  mem stop hsymbol htodo := by
    have hspans := hsymbol.spans hg
    have hle := ((htodo.spans hg).generates (hspans.generates hpos).2.1).1
    exact Extents.mem_toList_candidates_iff.2
      ⟨hle, (Extents.covers_iff_spans hg hpos hbegins).2 hspans⟩

/-- At first, the ends that are left are the candidates. -/
theorem endsOf (hg : g.WellFormed) {goal : Goal} {symbols : List Symbol}
    (hpos : pos ≤ input.size)
    (hbegins : ∀ id todo, symbols = .nonterm id :: todo → g.Begins input id pos) :
    ∀ symbol todo, symbols = symbol :: todo →
      EndsLeft g input above goal.stop symbol todo pos
        (Layout.endsOf (Extents.ofInput g input) goal symbols pos).toList := by
  rintro symbol todo rfl
  exact candidates hg hpos fun id hid => hbegins id todo (by rw [hid])

end EndsLeft

/-! ### Laid symbols -/

/-- Tells of symbols that are laid, the last one first, that each has its preferred tree, and that
no farther end would do in place of the chosen one. -/
inductive LaidOut (g : Grammar) (input : Array Char) (above : List Goal) (goal : Goal) :
    List Laid → List Symbol → Nat → Prop
  | nil {todo : List Symbol} : LaidOut g input above goal [] todo goal.start
  | cons {last : Laid} {laid : List Laid} {todo : List Symbol} {pos : Nat}
      (hlaid : LaidOut g input above goal laid (last.symbol :: todo) last.pos)
      (htree : Preferred g input above [last.symbol] last.pos pos [last.tree])
      (hends : EndsLeft g input above goal.stop last.symbol todo last.pos
        (pos :: last.ends.toList)) :
      LaidOut g input above goal (last :: laid) todo pos

namespace LaidOut

variable {g : Grammar} {input : Array Char} {above : List Goal} {goal : Goal} {laid : List Laid}
  {todo : List Symbol} {pos : Nat} {trees : List ParseTree}

theorem preferred (h : LaidOut g input above goal laid todo pos) :
    Preferred g input above (laid.reverse.map Laid.symbol) goal.start pos
      (laid.reverse.map Laid.tree) := by
  induction h with
  | nil => exact .nil
  | cons _ htree _ ih =>
    rw [List.reverse_cons, List.map_append, List.map_append]
    exact ih.append htree

theorem spans (hg : g.WellFormed) (h : LaidOut g input above goal laid todo pos) :
    g.Spans input (laid.reverse.map Laid.symbol) goal.start pos :=
  h.preferred.spans hg

/-- The symbols that are laid do not reach beyond the goal. -/
theorem pos_le_stop (hgoal : goal.start ≤ goal.stop)
    (h : LaidOut g input above goal laid todo pos) : pos ≤ goal.stop := by
  cases h with
  | nil => exact hgoal
  | cons _ _ hends => exact hends.le_limit pos List.mem_cons_self

/-- Any admissible trees for the whole rule have the ends of the laid symbols, or fall behind at
the first end in which they differ. -/
theorem farthest (h : LaidOut g input above goal laid todo pos)
    (htrees : Admissible g input above (laid.reverse.map Laid.symbol ++ todo)
      goal.start goal.stop trees) :
    (∃ front rest, trees = front ++ rest ∧ Admissible g input above todo pos goal.stop rest ∧
        front.map (·.span.stop) = (laid.reverse.map Laid.tree).map (·.span.stop)) ∨
      ∀ more, List.Lex (· < ·) (trees.map (·.span.stop))
        ((laid.reverse.map Laid.tree).map (·.span.stop) ++ more) := by
  induction h with
  | nil => exact Or.inl ⟨[], trees, rfl, htrees, rfl⟩
  | @cons last laid todo pos _ htree hends ih =>
    rw [List.reverse_cons, List.map_append, List.append_assoc] at htrees
    have hlast : last.tree.span.stop = pos := by rw [htree.span_eq]
    rw [List.reverse_cons, List.map_append, List.map_append]
    rcases ih htrees with ⟨front, rest, rfl, hrest, hfront⟩ | hlt
    · -- So far the ends agree: the next one is the chosen one, or one of those behind it.
      obtain ⟨tree, rest, rfl, -, hsymbol, htodo⟩ := hrest.exists_of_cons
      rcases List.mem_cons.1 (hends.mem _ ⟨_, hsymbol⟩ ⟨_, htodo⟩) with heq | hmem
      · left
        rw [heq] at htodo
        exact ⟨front ++ [tree], rest, by simp, htodo, by simp [hfront, heq, hlast]⟩
      · right
        intro more
        rw [List.map_append, hfront, List.append_assoc]
        apply List.Lex.append_left
        have hlt : tree.span.stop < last.tree.span.stop := by
          rw [hlast]
          exact hends.lt_of_mem hmem
        exact .rel hlt
    · right
      intro more
      rw [List.append_assoc]
      exact hlt _

end LaidOut

/-! ### Layouts -/

/-- What is known of a layout for `goal`, if `stops` are the ends that are left for the next
symbol. -/
structure Layout.Sound (g : Grammar) (input : Array Char) (above : List Goal) (goal : Goal)
    (l : Layout) (stops : List Nat) : Prop where
  rule_mem : l.rule ∈ g.alternativesOf goal.nonterm
  body_eq : (g.rule l.rule).body.toList = l.laid.reverse.map Laid.symbol ++ l.todo
  dot_eq : l.dot = l.laid.length
  laid : LaidOut g input above goal l.laid l.todo l.pos
  ends : ∀ symbol todo, l.todo = symbol :: todo →
    EndsLeft g input above goal.stop symbol todo l.pos stops
  memo : (Extents.ofInput g input).Agrees goal l.rule l.memo

namespace Layout.Sound

variable {g : Grammar} {input : Array Char} {above : List Goal} {goal : Goal} {l : Layout}
  {stops : List Nat} {stop : Nat} {symbol : Symbol} {todo : List Symbol} {tree : ParseTree}

theorem pos_le (hg : g.WellFormed) (hgoal : g.Begins input goal.nonterm goal.start)
    (h : l.Sound g input above goal stops) : l.pos ≤ input.size :=
  ((h.laid.spans hg).generates hgoal.le_size).2.1

theorem drop_dot (h : l.Sound g input above goal stops) :
    (g.rule l.rule).body.toList.drop l.dot = l.todo := by
  rw [h.body_eq, h.dot_eq]
  exact List.drop_left' (by simp)

theorem rule_lt (hg : g.WellFormed) (h : l.Sound g input above goal stops) :
    l.rule < g.rules.size :=
  (hg.mem_alternativesOf_iff.1 h.rule_mem).1

theorem dot_le (h : l.Sound g input above goal stops) : l.dot ≤ (g.rule l.rule).body.size := by
  rw [← Array.length_toList, h.body_eq, h.dot_eq]
  simp

/-- Before the next symbol the dot is not at the end of the rule. -/
theorem dot_lt (h : l.Sound g input above goal stops) (htodo : l.todo = symbol :: todo) :
    l.dot < (g.rule l.rule).body.size := by
  rw [← Array.length_toList, h.body_eq, htodo, h.dot_eq]
  simp

theorem drop_dot_succ (h : l.Sound g input above goal stops) (htodo : l.todo = symbol :: todo) :
    (g.rule l.rule).body.toList.drop (l.dot + 1) = todo := by
  rw [← List.tail_drop, h.drop_dot, htodo, List.tail_cons]

/-- The symbols before the next one and the next one itself, if that ends at `stop`. -/
theorem spans_take (hg : g.WellFormed) (h : l.Sound g input above goal stops)
    (htodo : l.todo = symbol :: todo) (hspans : g.Spans input [symbol] l.pos stop) :
    g.Spans input ((g.rule l.rule).body.toList.take (l.dot + 1)) goal.start stop := by
  have htake : (g.rule l.rule).body.toList.take (l.dot + 1) =
      l.laid.reverse.map Laid.symbol ++ [symbol] := by
    rw [h.body_eq, h.dot_eq, htodo, List.append_cons]
    exact List.take_left' (by simp)
  rw [htake]
  exact (h.laid.spans hg).append hspans

/-- A non-terminal that comes next may begin where it comes. -/
theorem begins (hg : g.WellFormed) (hgoal : g.Begins input goal.nonterm goal.start)
    (h : l.Sound g input above goal stops) {id : Nat} (htodo : l.todo = .nonterm id :: todo) :
    g.Begins input id l.pos := by
  obtain ⟨hlt, hhead⟩ := hg.mem_alternativesOf_iff.1 h.rule_mem
  rw [← hhead] at hgoal
  exact .inside hgoal hlt (h.body_eq.trans (by rw [htodo])) (h.laid.spans hg)

/-- A rule with nothing laid. -/
theorem ofRule (hg : g.WellFormed) (hgoal : g.Begins input goal.nonterm goal.start) {rule : Nat}
    (hrule : rule ∈ g.alternativesOf goal.nonterm) :
    (Layout.ofRule (Extents.ofInput g input) goal rule).Sound g input above goal
      (Layout.ofRule (Extents.ofInput g input) goal rule).ends.toList where
  rule_mem := hrule
  body_eq := rfl
  dot_eq := rfl
  laid := .nil
  ends := by
    refine EndsLeft.endsOf hg hgoal.le_size fun id todo htodo => ?_
    obtain ⟨hlt, hhead⟩ := hg.mem_alternativesOf_iff.1 hrule
    rw [← hhead] at hgoal
    exact .inside hgoal hlt (htodo.trans (List.nil_append _).symm) .nil
  memo := Extents.agrees_empty _ _ _

/-- One more symbol is laid, with its preferred tree. -/
theorem lay (hg : g.WellFormed) (hgoal : g.Begins input goal.nonterm goal.start)
    (h : l.Sound g input above goal (stop :: l.ends.toList)) (htodo : l.todo = symbol :: todo)
    (htree : Preferred g input above [symbol] l.pos stop [tree]) :
    (l.lay (Extents.ofInput g input) goal stop tree).Sound g input above goal
      (l.lay (Extents.ofInput g input) goal stop tree).ends.toList := by
  obtain ⟨hlt, hhead⟩ := hg.mem_alternativesOf_iff.1 h.rule_mem
  have hends := h.ends symbol todo htodo
  have hlaid := h.laid
  have hbody := h.body_eq
  rw [htodo] at hlaid hbody
  rw [Layout.lay, htodo]
  have hnew : LaidOut g input above goal (⟨symbol, l.pos, tree, l.ends⟩ :: l.laid) todo stop :=
    .cons hlaid htree hends
  have hbody' : (g.rule l.rule).body.toList =
      (⟨symbol, l.pos, tree, l.ends⟩ :: l.laid).reverse.map Laid.symbol ++ todo := by
    rw [hbody, List.reverse_cons, List.map_append, List.append_assoc]
    rfl
  refine ⟨h.rule_mem, hbody', by rw [h.dot_eq]; rfl, hnew, ?_, h.memo⟩
  have hspans := hnew.spans hg
  refine EndsLeft.endsOf hg (hspans.generates hgoal.le_size).2.1 ?_
  rintro id todo' rfl
  rw [← hhead] at hgoal
  exact .inside hgoal hlt hbody' hspans

/-- Neither the ends that are kept with a layout nor its memo matter for the rest of it. -/
theorem update (h : l.Sound g input above goal stops) (ends : Ends) {memo : Memo}
    (hmemo : (Extents.ofInput g input).Agrees goal l.rule memo) :
    Layout.Sound g input above goal { l with ends := ends, memo := memo } stops :=
  ⟨h.rule_mem, h.body_eq, h.dot_eq, h.laid, h.ends, hmemo⟩

/-- The end that was tried is used up, if it leaves no room for trees. -/
theorem useUp (h : l.Sound g input above goal (stop :: stops)) (htodo : l.todo = symbol :: todo)
    (hstop : ¬(Growable g input above [symbol] l.pos stop ∧
      Growable g input above todo stop goal.stop)) :
    l.Sound g input above goal stops where
  rule_mem := h.rule_mem
  body_eq := h.body_eq
  dot_eq := h.dot_eq
  laid := h.laid
  ends symbol' todo' htodo' := by
    rw [htodo, List.cons.injEq] at htodo'
    obtain ⟨rfl, rfl⟩ := htodo'
    exact (h.ends symbol todo htodo).tail hstop
  memo := h.memo

/-- If there are no trees for what is not laid, the last symbol has to end nearer. -/
theorem takeBack {l' : Layout} (h : l.Sound g input above goal stops)
    (hnone : ¬Growable g input above l.todo l.pos goal.stop) (hback : l.takeBack = some l') :
    l'.rule = l.rule ∧ l'.Sound g input above goal l'.ends.toList := by
  have hlaid := h.laid
  have hbody := h.body_eq
  have hdot := h.dot_eq
  rw [Layout.takeBack] at hback
  split at hback
  · cases hback
  · rename_i last laid heq
    cases hback
    rw [heq] at hlaid hbody hdot
    cases hlaid with
    | cons hlaid htree hends =>
      refine ⟨rfl, h.rule_mem, ?_, ?_, hlaid, ?_, h.memo⟩
      · rw [hbody, List.reverse_cons, List.map_append, List.append_assoc]
        rfl
      · rw [hdot, List.length_cons, Nat.add_sub_cancel]
      · intro symbol todo htodo
        rw [List.cons.injEq] at htodo
        obtain ⟨rfl, rfl⟩ := htodo
        exact hends.tail fun hgrowable => hnone hgrowable.2

/-- If nothing is laid, the rule has no trees. -/
theorem not_growable_of_takeBack (h : l.Sound g input above goal stops)
    (hnone : ¬Growable g input above l.todo l.pos goal.stop) (hback : l.takeBack = none) :
    ¬Growable g input above (g.rule l.rule).body.toList goal.start goal.stop := by
  have hlaid := h.laid
  rw [Layout.takeBack] at hback
  split at hback
  · rename_i heq
    rw [heq] at hlaid
    rw [h.body_eq, heq]
    generalize l.todo = todo, l.pos = pos at hlaid hnone
    cases hlaid
    exact hnone
  · cases hback

/-- An end is allowed exactly if what comes behind it derives the rest; nothing changes but what
is known to fit. -/
theorem allows (hg : g.WellFormed) (hgoal : g.Begins input goal.nonterm goal.start)
    (h : l.Sound g input above goal stops) (htodo : l.todo = symbol :: todo)
    (hspans : g.Spans input [symbol] l.pos stop) :
    ∃ memo, (l.allows (Extents.ofInput g input) goal todo stop).2 = { l with memo := memo } ∧
      (Extents.ofInput g input).Agrees goal l.rule memo ∧
        ((l.allows (Extents.ofInput g input) goal todo stop).1 = true ↔
          g.Spans input todo stop goal.stop) := by
  -- What the look-ahead asks of the chart holds on both sides of the end.
  have htake := h.spans_take hg htodo hspans
  have hdrop := h.drop_dot_succ htodo
  have hreaches := (Extents.reaches_iff_spans hg h.rule_mem hgoal (h.dot_lt htodo)).2 htake
  obtain ⟨hagrees, hfits⟩ := Extents.fits_spec (c := .ofInput g input) hdrop h.memo stop
  rw [Extents.lays_iff_spans hg h.rule_mem hgoal hdrop htake] at hfits
  rw [Layout.allows, if_pos hreaches]
  exact ⟨_, rfl, hagrees, hfits⟩

end Layout.Sound

end Earley
