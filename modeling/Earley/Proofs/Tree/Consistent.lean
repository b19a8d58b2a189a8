/-
  `Consistent` — the parts of an assembly agree with each other, after every turn.

  An assembly keeps one thing in several places: the goals of its nodes are also in a set, the
  symbols that a node has laid are counted by its dot and have a tree and a walker each, and a node
  that waits names the end of the node above it. `OpenNode.Consistent` and `Assembly.Consistent`
  say that these agree, and that the chart holds what a node has come to.

  It follows from what is known of the search that the assembly simulates, and so it holds of every
  state that an assembly comes to (`assembly_consistent`). From each of them the next turn can be
  taken, with every number checked: nothing is read out of range, and no part of the input and no
  range of positions is out of order.
-/
import Earley.Proofs.Tree.Assembly
import Earley.Proofs.Tree.Fitting
import Earley.Proofs.Tree.Faithful

namespace Earley

/-! ### What is to agree -/

/-- Tells that an open node agrees with the rule that it lays, and with the chart. -/
structure OpenNode.Consistent (c : Chart) (f : OpenNode) (span : RuleSpan) : Prop where
  rule_lt : span.rule < c.grammar.rules.size
  rule_mem : span.rule ∈ c.grammar.alternativesOf f.goal.nonterm
  start_eq : span.start = f.goal.start
  stop_eq : span.stop = f.goal.stop
  /-- There is a tree for each symbol before the dot, and the dot is in the rule. -/
  size_children : f.children.size = f.dot
  dot_le : f.dot ≤ (c.grammar.rule span.rule).body.size
  /-- There is a walker for each symbol before the dot, and perhaps one for the next symbol. -/
  size_candidates : f.candidates.size = f.dot ∨ f.candidates.size = f.dot + 1
  tile : ParseTree.Tile f.goal.start f.pos f.children.toList
  start_le : f.goal.start ≤ f.pos
  pos_le : f.pos ≤ f.goal.stop
  stop_le : f.goal.stop ≤ c.input.size
  /-- No walker looks before its symbol or beyond the input. -/
  candidates_le : ∀ walker ∈ f.candidates, ∀ limit, walker.upper = some limit →
    walker.pos ≤ limit ∧ limit ≤ c.input.size
  /-- The chart holds the rule with its dot where it stands. -/
  item_mem : ∃ set, c.setAt? f.pos = some set ∧
    set.contains ⟨span.rule, f.dot, f.goal.start⟩ = true

/-- Tells that a node waits for the non-terminal at its dot, from the position reached to the end
that is pending, and that `next` is this. -/
def OpenNode.Awaits (c : Chart) (f : OpenNode) (next : Goal) : Prop :=
  ∃ span id, f.layout = some span ∧
    (c.grammar.rule span.rule).body[f.dot]? = some (.nonterm id) ∧ next = ⟨id, f.pos, f.pending⟩

namespace Assembly

/-- The goals of the nodes on the stack, the one on top first. -/
def goals (a : Assembly) : List Goal := a.stack.map OpenNode.goal

/-- Tells that the parts of an assembly agree with each other. -/
structure Consistent (c : Chart) (a : Assembly) : Prop where
  active : ∀ goal, goal ∈ a.active ↔ goal ∈ a.goals
  nodup : a.goals.Nodup
  nodes : ∀ f ∈ a.stack, ∀ span, f.layout = some span → f.Consistent c span
  /-- What a node below the top waits for is the node right above it. -/
  awaits : a.stack.IsChain fun above f => f.Awaits c above.goal

/-- The states that an assembly comes to from `first`, one turn after another. -/
inductive Reached (x : Extents) (first : Assembly) : Assembly → Prop
  | first : Reached x first first
  | turn {a a' : Assembly} (h : Reached x first a) (hturn : a.step? x = some (.running a')) :
      Reached x first a'

end Assembly

/-! ### Nodes that lay what is known -/

/-- The chart has the rule with its dot where it stands, since the symbols before the dot are
derived. -/
theorem Layout.Sound.reaches_dot {g : Grammar} {input : Array Char} {above : List Goal}
    {goal : Goal} {l : Layout} {stops : List Nat} (hg : g.WellFormed)
    (hgoal : g.Begins input goal.nonterm goal.start) (h : l.Sound g input above goal stops) :
    (Extents.ofInput g input).reaches goal l.rule l.dot l.pos = true := by
  refine (Extents.reaches_iff_spans hg h.rule_mem hgoal h.dot_le).2 ?_
  have htake : (g.rule l.rule).body.toList.take l.dot = l.laid.reverse.map Laid.symbol := by
    rw [h.body_eq, h.dot_eq]
    exact List.take_left' (by simp)
  rw [htake]
  exact h.laid.spans hg

namespace OpenNode

variable {g : Grammar} {input : Array Char} {above : List Goal} {goal : Goal} {l : Layout}
  {f : OpenNode} {next : Option Candidates} {stops : List Nat} {w : Waiting}

/-- The walkers of a node are in range. -/
theorem Lays.inRange (h : f.Lays (.ofInput g input) goal l next)
    (hready : Ready (.ofInput g input) goal l next) :
    ∀ walker ∈ f.candidates, walker.InRange (.ofInput g input) := by
  obtain ⟨walkers, heq, hwalkers⟩ := h.candidates
  intro walker hmem
  rw [← Array.mem_toList_iff, heq, List.mem_append, List.mem_reverse, Option.mem_toList] at hmem
  rcases hmem with hmem | rfl
  · generalize l.laid = laid at hwalkers
    clear heq
    induction hwalkers with
    | nil => cases hmem
    | cons hwalks _ ih =>
      rcases List.mem_cons.1 hmem with rfl | hmem
      · exact hwalks.inRange
      · exact ih hmem
  · obtain ⟨_, _, -, hwalks⟩ := hready
    exact hwalks.inRange

theorem Lays.consistent (hg : g.WellFormed) (h : f.Lays (.ofInput g input) goal l next)
    (hready : Ready (.ofInput g input) goal l next) (heq : f.goal = goal)
    (hgoal : goal.Sound g input) (hsound : l.Sound g input above goal stops) :
    f.Consistent (.ofInput g input) ⟨l.rule, goal.start, goal.stop⟩ := by
  subst heq
  have hpos := hsound.pos_le hg hgoal.begins
  have htile := hsound.laid.preferred.tile
  have hreaches := hsound.reaches_dot hg hgoal.begins
  rw [← h.children, ← h.pos] at htile
  rw [← h.dot, ← h.pos] at hreaches
  refine ⟨hsound.rule_lt hg, hsound.rule_mem, rfl, rfl, ?_, ?_, ?_, htile, ?_, ?_,
    hgoal.stop_le, ?_, ?_⟩
  · rw [← Array.length_toList, h.children, List.length_map, List.length_reverse, h.dot,
      hsound.dot_eq]
  · rw [h.dot]
    exact hsound.dot_le
  · rw [h.size_candidates, h.dot, hsound.dot_eq]
    cases next with
    | none => exact Or.inl rfl
    | some walker => exact Or.inr rfl
  · rw [h.pos]
    exact ((hsound.laid.spans hg).generates hgoal.begins.le_size).1
  · rw [h.pos]
    exact hsound.laid.pos_le_stop hgoal.start_le
  · exact fun walker hmem => h.inRange hready walker hmem
  · refine ⟨_, Chart.setAt?_ofInput ?_, hreaches⟩
    rwa [h.pos]

/-- A node that waits is consistent, and waits for what the search waits for. -/
theorem Waits.consistent (hg : g.WellFormed) (h : f.Waits (.ofInput g input) w)
    {goal : Goal} (hw : w.Sound g input above goal) :
    (∀ span, f.layout = some span → f.Consistent (.ofInput g input) span) ∧
      f.Awaits (.ofInput g input) goal := by
  obtain ⟨walker, hlays, hready⟩ := h.lays
  obtain ⟨id, todo, htodo, rfl⟩ := hw.next_eq
  constructor
  · intro span hspan
    rw [hlays.layout] at hspan
    cases hspan
    exact hlays.consistent hg hready h.goal hw.goal hw.layout
  · refine ⟨_, id, hlays.layout, ?_, ?_⟩
    · have hdrop := hw.layout.drop_dot
      rw [hlays.dot, ← Array.getElem?_toList, ← List.head?_drop]
      show (List.drop _ (g.rule w.layout.rule).body.toList).head? = _
      rw [hdrop, htodo, List.head?_cons]
    · rw [hlays.pos, h.pending]

/-- So is the whole part of the stack below a node. -/
theorem consistent_below (hg : g.WellFormed) {nodes : List OpenNode} {below : List Waiting}
    (h : List.Forall₂ (Waits (.ofInput g input)) nodes below)
    (hbelow : BelowSound g input goal below) (heq : f.goal = goal) :
    (∀ f ∈ nodes, ∀ span, f.layout = some span → f.Consistent (.ofInput g input) span) ∧
      (f :: nodes).IsChain fun above f => f.Awaits (.ofInput g input) above.goal := by
  induction h generalizing f goal with
  | nil => exact ⟨fun _ hmem => absurd hmem List.not_mem_nil, .singleton _⟩
  | cons hwaits _ ih =>
    obtain ⟨hw, hbelow⟩ := hbelow
    obtain ⟨hnode, hawaits⟩ := hwaits.consistent hg hw
    obtain ⟨hnodes, hchain⟩ := ih hbelow hwaits.goal
    rw [← heq] at hawaits
    exact ⟨List.forall_mem_cons.2 ⟨hnode, hnodes⟩, .cons_cons hawaits hchain⟩

end OpenNode

/-! ### Assemblies that simulate a search -/

namespace Search

variable {g : Grammar} {input : Array Char} {root : Goal} {s : Search}

/-- The goals on the stack, the top one first. -/
def goals (s : Search) : List Goal := s.top.goal :: s.below.map Waiting.goal

theorem Sound.nodup_goals (hs : s.Sound g input root) : s.goals.Nodup :=
  List.nodup_cons.2 ⟨hs.top.fresh, (nodup_below hs.below).1⟩

theorem Sound.goals_sound (hs : s.Sound g input root) : ∀ goal ∈ s.goals, goal.Sound g input :=
  List.forall_mem_cons.2 ⟨hs.top.goal, (nodup_below hs.below).2⟩

end Search

namespace Assembly

variable {g : Grammar} {input : Array Char} {root : Goal} {a : Assembly} {s : Search}

theorem goals_below {nodes : List OpenNode} {below : List Waiting}
    (h : List.Forall₂ (OpenNode.Waits (.ofInput g input)) nodes below) :
    nodes.map OpenNode.goal = below.map Waiting.goal := by
  induction h with
  | nil => rfl
  | cons hwaits _ ih => rw [List.map_cons, List.map_cons, hwaits.goal, ih]

theorem Simulates.goals_eq (h : a.Simulates g input s) : a.goals = s.goals := by
  cases h with
  | working htop hbelow =>
    exact congrArg₂ List.cons htop.goal (goals_below hbelow)
  | @returned f nodes w below active room tree above next htop hw hbelow =>
    have hgoal : (w.resume (.ofInput g input) tree).goal = w.goal := by cases tree <;> rfl
    exact congrArg₂ List.cons (htop.goal.trans hgoal.symm) (goals_below hbelow)

theorem Simulates.active_eq (h : a.Simulates g input s) : a.active = s.active := by
  cases h <;> rfl

/-- The nodes on the stack are consistent, and each waits for the one right above it. -/
theorem Simulates.nodes (hg : g.WellFormed) (hs : s.Sound g input root)
    (h : a.Simulates g input s) :
    (∀ f ∈ a.stack, ∀ span, f.layout = some span → f.Consistent (.ofInput g input) span) ∧
      a.stack.IsChain fun above f => f.Awaits (.ofInput g input) above.goal := by
  cases h with
  | @working f nodes top below active room htop hbelow =>
    obtain ⟨hnodes, hchain⟩ := OpenNode.consistent_below hg hbelow hs.below htop.goal
    refine ⟨List.forall_mem_cons.2 ⟨fun span hspan => ?_, hnodes⟩, hchain⟩
    cases hl : top.layout with
    | none =>
      rw [htop.idle hl] at hspan
      cases hspan
    | some l =>
      obtain ⟨next, hlays, hready⟩ := htop.lays l hl
      rw [hlays.layout] at hspan
      cases hspan
      exact hlays.consistent hg hready htop.goal hs.top.goal (hs.top.layout l hl)
  | @returned f nodes w below active room tree above next htop hw hbelow =>
    have hgoal : (w.resume (.ofInput g input) tree).goal = w.goal := by cases tree <;> rfl
    obtain ⟨hnodes, hchain⟩ :=
      OpenNode.consistent_below hg hbelow hs.below (htop.goal.trans hgoal.symm)
    exact ⟨List.forall_mem_cons.2 ⟨(htop.consistent hg hw).1, hnodes⟩, hchain⟩

theorem Simulates.consistent (hg : g.WellFormed) (hs : s.Sound g input root)
    (h : a.Simulates g input s) : a.Consistent (.ofInput g input) := by
  have hnodup := hs.nodup_goals
  rw [← h.goals_eq] at hnodup
  obtain ⟨hnodes, hawaits⟩ := h.nodes hg hs
  refine ⟨fun goal => ?_, hnodup, hnodes, hawaits⟩
  rw [h.active_eq, h.goals_eq]
  exact hs.active goal

/-- From a state that simulates a search the next turn can be taken, and what it leads to simulates
a search again. -/
theorem Simulates.exists_step? (hg : g.WellFormed) (hs : s.Sound g input root)
    (h : a.Simulates g input s) :
    ∃ outcome, a.step? (.ofInput g input) = some outcome ∧
      ∀ a', outcome = .running a' →
        ∃ s' : Search, s'.Sound g input root ∧ a'.Simulates g input s' := by
  cases hreturned : a.returned with
  | none =>
    obtain ⟨outcome, hturn, houtcome⟩ := exists_step?_of_working hg hs h hreturned
    refine ⟨outcome, hturn, ?_⟩
    rintro a' rfl
    have hs' := Search.sound_step hg hs
    cases hstep : s.step (.ofInput g input) with
    | running s' =>
      rw [hstep] at houtcome hs'
      exact ⟨s', hs', houtcome⟩
    | finished tree =>
      rw [hstep] at houtcome
      exact houtcome.elim
  | some tree =>
    obtain ⟨a', hturn, hsimulates, -⟩ :=
      exists_step?_of_returned h hreturned
    refine ⟨_, hturn, ?_⟩
    rintro _ ⟨⟩
    exact ⟨s, hs, hsimulates⟩

/-- Every state that an assembly comes to simulates a search of which all is known. -/
theorem exists_simulates_of_reached (hg : g.WellFormed) (hroot : root.Sound g input)
    (h : Reached (.ofInput g input) (start root) a) :
    ∃ s : Search, s.Sound g input root ∧ a.Simulates g input s := by
  induction h with
  | first => exact ⟨_, Search.sound_start hroot, simulates_start root⟩
  | turn _ hturn ih =>
    obtain ⟨s, hs, hsimulates⟩ := ih
    obtain ⟨outcome, hturn', hnext⟩ := hsimulates.exists_step? hg hs
    rw [hturn] at hturn'
    cases hturn'
    exact hnext _ rfl

end Assembly

/-! ### Every state of the assembly of a tree -/

/-- **The parts of an assembly agree after every turn**, and no turn reads out of range: whatever
state the assembly of the tree of an accepted input comes to, it is consistent, and the next turn
can be taken with every number checked. -/
theorem assembly_consistent {steps : List Step} {start : String} {g : Grammar}
    (h : Grammar.build steps start = .ok g) {input : List Char} {chart : Chart}
    (hparse : g.parse input = .ok chart) :
    ∀ a, Assembly.Reached (.ofChart chart) (.start chart.goal) a →
      a.Consistent chart ∧ ∃ outcome, a.step? (.ofChart chart) = some outcome := by
  have hg := Grammar.wellFormed_of_build h
  obtain rfl := Grammar.parse_eq_ofInput hparse
  intro a hreached
  obtain ⟨s, hs, hsimulates⟩ :=
    Assembly.exists_simulates_of_reached hg (Chart.sound_goal hg input.toArray) hreached
  obtain ⟨outcome, hturn, -⟩ := hsimulates.exists_step? hg hs
  exact ⟨hsimulates.consistent hg hs, outcome, hturn⟩

/-- The assembly of the tree of an input of an ambiguous and cyclic grammar. -/
theorem assembly_consistent_doublingSteps :
    ∃ g chart, Grammar.build Grammar.doublingSteps "S" = .ok g ∧
      g.parse ['a', 'a'] = .ok chart ∧
      ∀ a, Assembly.Reached (.ofChart chart) (.start chart.goal) a →
        a.Consistent chart ∧ ∃ outcome, a.step? (.ofChart chart) = some outcome := by
  obtain ⟨g, hbuild, hparse⟩ := Grammar.exists_parse_doublingSteps
  exact ⟨g, _, hbuild, hparse, assembly_consistent hbuild hparse⟩

end Earley
