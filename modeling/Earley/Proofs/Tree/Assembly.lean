/-
  `Assembly` — nodes are put together as the search lays goals.

  An assembly keeps apart what a search keeps in one place: the children of a node, the walkers
  over the ends, the dot, the position, and the end that is waited for. `OpenNode.Lays` says that
  these parts, taken together, are a layout of the search; each walker has the ends left that the
  layout has (`Candidates.Walks`). `Assembly.Simulates` says it of the stack, where a child may
  have been returned and not yet been taken over.

  A turn of an assembly is a move of the search, or it takes over what was returned, which the
  search does at once (`exists_step?_of_working`, `exists_step?_of_returned`). So every turn can
  be taken, with every number checked, and the assembly ends with the tree that the search finds
  (`exists_moves?_eq_finished`).
-/
import Earley.Proofs.Tree.Candidates
import Earley.Tree.Assembly

namespace Earley

/-! ### Walkers and symbols that are laid -/

/-- Tells that a walker goes over the ends of `symbol` from `pos` on, of which `stops` are left. -/
structure Candidates.Walks (x : Extents) (w : Candidates) (symbol : Symbol) (pos : Nat)
    (stops : List Nat) : Prop where
  symbol_eq : w.symbol = symbol
  pos_eq : w.pos = pos
  inRange : w.InRange x
  left_eq : w.left x = stops

namespace OpenNode

/-- Tells that a node has the symbols of the layout `l` laid, and that `next` is its walker over the
ends of the next symbol, if there is one already. -/
structure Lays (x : Extents) (goal : Goal) (l : Layout) (f : OpenNode)
    (next : Option Candidates) : Prop where
  layout : f.layout = some ⟨l.rule, goal.start, goal.stop⟩
  dot : f.dot = l.dot
  pos : f.pos = l.pos
  memo : f.memo = l.memo
  children : f.children.toList = l.laid.reverse.map Laid.tree
  candidates : ∃ walkers, f.candidates.toList = walkers.reverse ++ next.toList ∧
    List.Forall₂ (fun (w : Candidates) laid => w.Walks x laid.symbol laid.pos laid.ends.toList)
      walkers l.laid

/-- Tells that the walker `next` has the ends left that the layout has; without a walker no end of
the next symbol has been tried. -/
def Ready (x : Extents) (goal : Goal) (l : Layout) : Option Candidates → Prop
  | none => l.ends = Layout.endsOf x goal l.todo l.pos
  | some w => ∃ symbol todo, l.todo = symbol :: todo ∧ w.Walks x symbol l.pos l.ends.toList

/-- Tells that a node has come as far as the work on a goal. -/
structure Follows (x : Extents) (f : OpenNode) (top : Frame) : Prop where
  goal : f.goal = top.goal
  untried : (x.chart.grammar.alternativesOf top.goal.nonterm).drop f.alternative = top.untried
  idle : top.layout = none → f.layout = none
  lays : ∀ l, top.layout = some l → ∃ next, f.Lays x top.goal l next ∧ Ready x top.goal l next

/-- Tells that a node waits as a goal of the search does. -/
structure Waits (x : Extents) (f : OpenNode) (w : Waiting) : Prop where
  goal : f.goal = w.goal
  untried : (x.chart.grammar.alternativesOf w.goal.nonterm).drop f.alternative = w.untried
  lays : ∃ walker, f.Lays x w.goal w.layout (some walker) ∧ Ready x w.goal w.layout (some walker)
  pending : f.pending = w.stop

/-! ### Turns of a node -/

section Lays

variable {x : Extents} {goal : Goal} {l : Layout} {f : OpenNode} {next : Option Candidates}
  {walker : Candidates} {symbol : Symbol} {todo : List Symbol}

theorem Lays.size_candidates (h : f.Lays x goal l next) :
    f.candidates.size = l.laid.length + next.toList.length := by
  obtain ⟨walkers, heq, hwalkers⟩ := h.candidates
  rw [← Array.length_toList, heq, List.length_append, List.length_reverse, hwalkers.length_eq]

/-- The ends that were not tried do not matter for what is laid. -/
theorem Lays.update (h : f.Lays x goal l next) (ends : Ends) :
    f.Lays x goal { l with ends := ends } next :=
  ⟨h.layout, h.dot, h.pos, h.memo, h.children, h.candidates⟩

/-- What is known to fit is noted on both sides. -/
theorem Lays.note (h : f.Lays x goal l next) (memo : Memo) :
    Lays x goal { l with memo := memo } { f with memo := memo } next :=
  ⟨h.layout, h.dot, h.pos, rfl, h.children, h.candidates⟩

/-- What is waited for does not matter for what is laid. -/
theorem Lays.await (h : f.Lays x goal l next) (stop : Nat) : (f.await stop).Lays x goal l next :=
  ⟨h.layout, h.dot, h.pos, h.memo, h.children, h.candidates⟩

/-- A rule with nothing laid. -/
theorem lays_restart (f : OpenNode) (rule : Nat) :
    (f.restart ⟨rule, f.goal.start, f.goal.stop⟩).Lays x f.goal (.ofRule x f.goal rule) none ∧
      Ready x f.goal (.ofRule x f.goal rule) none :=
  ⟨⟨rfl, rfl, rfl, rfl, rfl, [], rfl, .nil⟩, rfl⟩

/-- With a walker for the next symbol, that is the one at the dot. -/
theorem Lays.getElem?_candidates (h : f.Lays x goal l (some walker))
    (hdot : l.dot = l.laid.length) : f.candidates[f.dot]? = some walker := by
  obtain ⟨walkers, heq, hwalkers⟩ := h.candidates
  have hlength : walkers.reverse.length = f.dot := by
    rw [List.length_reverse, hwalkers.length_eq, h.dot, hdot]
  rw [← Array.getElem?_toList, heq, ← hlength]
  simp

/-- The walker for the next symbol is replaced. -/
theorem Lays.putBack (h : f.Lays x goal l (some walker)) (hdot : l.dot = l.laid.length)
    (walker' : Candidates) : (f.putBack walker').Lays x goal l (some walker') := by
  obtain ⟨walkers, heq, hwalkers⟩ := h.candidates
  have hlength : walkers.reverse.length = f.dot := by
    rw [List.length_reverse, hwalkers.length_eq, h.dot, hdot]
  refine ⟨h.layout, h.dot, h.pos, h.memo, h.children, walkers, ?_, hwalkers⟩
  rw [OpenNode.putBack, Array.toList_setIfInBounds, heq, ← hlength]
  simp

/-- The walker for the next symbol is dropped. -/
theorem Lays.dropWalker (h : f.Lays x goal l (some walker)) :
    f.dropWalker.Lays x goal l none := by
  obtain ⟨walkers, heq, hwalkers⟩ := h.candidates
  refine ⟨h.layout, h.dot, h.pos, h.memo, h.children, walkers, ?_, hwalkers⟩
  rw [OpenNode.dropWalker, Array.toList_pop, heq]
  simp

/-- The next symbol is laid, with the walker that gave its end. -/
theorem Lays.lay (h : f.Lays x goal l (some walker)) (hready : Ready x goal l (some walker))
    (stop : Nat) (tree : ParseTree) :
    (f.lay stop tree).Lays x goal (l.lay x goal stop tree) none ∧
      Ready x goal (l.lay x goal stop tree) none := by
  obtain ⟨symbol, todo, htodo, hwalks⟩ := hready
  obtain ⟨walkers, heq, hwalkers⟩ := h.candidates
  rw [Layout.lay, htodo]
  refine ⟨⟨h.layout, congrArg (· + 1) h.dot, rfl, h.memo, ?_, walker :: walkers, ?_,
    .cons hwalks hwalkers⟩, rfl⟩
  · rw [OpenNode.lay, Array.toList_push, h.children, List.reverse_cons, List.map_append]
    rfl
  · rw [OpenNode.lay, heq, Option.toList_none, List.append_nil, Option.toList_some,
      List.reverse_cons]

/-- The last symbol is taken back, or the rule is given up. -/
theorem Lays.backtrack?_eq (h : f.Lays x goal l none) (hdot : l.dot = l.laid.length) :
    ∃ f', f.backtrack? = some f' ∧ f'.goal = f.goal ∧ f'.alternative = f.alternative ∧
      (l.takeBack = none → f'.layout = none) ∧
        ∀ l', l.takeBack = some l' →
          ∃ next, f'.Lays x goal l' next ∧ Ready x goal l' next := by
  obtain ⟨walkers, heq, hwalkers⟩ := h.candidates
  have hchildren := h.children
  rw [Option.toList_none, List.append_nil] at heq
  rw [backtrack?, h.dot, hdot, Layout.takeBack]
  cases hlaid : l.laid with
  | nil =>
    refine ⟨_, rfl, rfl, rfl, fun _ => rfl, ?_⟩
    rintro _ ⟨⟩
  | cons last laid =>
    rw [hlaid] at hwalkers hchildren
    obtain ⟨walker, behind, hwalks, hbehind, rfl⟩ := List.forall₂_cons_right_iff.1 hwalkers
    rw [List.reverse_cons] at heq
    have hlength : behind.reverse.length = laid.length := by
      rw [List.length_reverse, hbehind.length_eq]
    have hwalker : f.candidates[laid.length]? = some walker := by
      rw [← Array.getElem?_toList, heq, ← hlength]
      simp
    rw [List.length_cons]
    simp only [hwalker, Option.bind_eq_bind, Option.bind_some]
    refine ⟨_, rfl, rfl, rfl, ?_, ?_⟩
    · rintro ⟨⟩
    · rintro _ ⟨⟩
      refine ⟨some walker, ⟨h.layout, ?_, hwalks.pos_eq, h.memo, ?_, behind, heq, hbehind⟩, ?_⟩
      · rw [hdot, hlaid, List.length_cons, Nat.add_sub_cancel]
      · rw [Array.toList_pop, hchildren]
        simp
      · exact ⟨last.symbol, l.todo, rfl, hwalks⟩

end Lays

section Turns

variable {g : Grammar} {input : Array Char} {above : List Goal} {goal : Goal} {l : Layout}
  {f : OpenNode} {next : Option Candidates} {stops : List Nat} {stop : Nat} {symbol : Symbol}
  {todo : List Symbol}

/-- There is a walker for the next symbol, or one is taken up. -/
theorem Lays.takeUp (h : f.Lays (.ofInput g input) goal l next)
    (hready : Ready (.ofInput g input) goal l next) (hgoal : goal.Sound g input)
    (hsound : l.Sound g input above goal stops) (htodo : l.todo = symbol :: todo) :
    ∃ walker, (f.takeUp ⟨l.rule, goal.start, goal.stop⟩ symbol).Lays (.ofInput g input) goal l
        (some walker) ∧ Ready (.ofInput g input) goal l (some walker) := by
  have hsize := h.size_candidates
  have hdot : f.dot = l.laid.length := h.dot.trans hsound.dot_eq
  cases next with
  | none =>
    obtain ⟨behind, heq, hbehind⟩ := h.candidates
    have hends : l.ends = (Extents.ofInput g input).candidates symbol l.pos goal.stop := by
      rw [show l.ends = _ from hready, htodo]
      rfl
    have hrange : (Candidates.upTo symbol l.pos goal.stop).InRange (.ofInput g input) :=
      Candidates.inRange_upTo (hsound.laid.pos_le_stop hgoal.start_le) hgoal.stop_le
    rw [OpenNode.takeUp, if_pos (hsize.trans hdot.symm)]
    refine ⟨.upTo symbol l.pos goal.stop, ⟨h.layout, h.dot, h.pos, h.memo, h.children, behind, ?_,
      hbehind⟩, symbol, todo, htodo, rfl, rfl, hrange, ?_⟩
    · rw [Array.toList_push, heq, h.pos]
      simp
    · rw [hends]
      rfl
  | some walker =>
    have hne : f.candidates.size ≠ f.dot := by
      rw [hsize, hdot, Option.toList_some, List.length_singleton]
      omega
    rw [OpenNode.takeUp, if_neg hne]
    exact ⟨walker, h, hready⟩

/-- An end for the next symbol is looked at as the layout looks at it. -/
theorem tryStop?_eq (hg : g.WellFormed) (hgoal : goal.Sound g input)
    (hsound : l.Sound g input above goal stops) (htodo : l.todo = symbol :: todo)
    (hstop : stop ≤ goal.stop) (hdot : f.dot = l.dot) (hmemo : f.memo = l.memo) :
    f.tryStop? (.ofInput g input) ⟨l.rule, goal.start, goal.stop⟩ symbol stop =
      if (l.allows (.ofInput g input) goal todo stop).1 then
        commit? (.ofInput g input)
          { f with memo := (l.allows (.ofInput g input) goal todo stop).2.memo } symbol stop
      else some (.again
        { f with memo := (l.allows (.ofInput g input) goal todo stop).2.memo }) := by
  have hset : (Extents.ofInput g input).chart.setAt? stop =
      some ((Extents.ofInput g input).chart.setAt stop) :=
    Chart.setAt?_ofInput (Nat.le_trans hstop hgoal.stop_le)
  have hahead := Extents.lookAhead?_eq hg (hsound.rule_lt hg) hgoal.stop_le (hsound.dot_lt htodo)
    hstop (hsound.drop_dot_succ htodo) l.memo
  obtain ⟨_, _, _, memo, _, _, dot, _, _⟩ := f
  obtain rfl : dot = l.dot := hdot
  obtain rfl : memo = l.memo := hmemo
  rw [tryStop?, Layout.allows, hset]
  simp only [hahead, Extents.reaches, Option.bind_eq_bind, Option.bind_some]
  by_cases hcontains : ((Extents.ofInput g input).chart.setAt stop).contains
      ⟨l.rule, l.dot + 1, goal.start⟩ = true
  · simp only [hcontains, if_true]
  · simp only [hcontains, Bool.false_eq_true, if_false]

/-- If no end is left for the next symbol, the one before it is taken back. -/
theorem Lays.place?_of_next?_eq_none (hg : g.WellFormed)
    (h : f.Lays (.ofInput g input) goal l next) (hready : Ready (.ofInput g input) goal l next)
    (hgoal : goal.Sound g input) (hsound : l.Sound g input above goal stops)
    (htodo : l.todo = symbol :: todo) (hends : l.ends.next? = none) :
    ∃ f', f.place? (.ofInput g input) ⟨l.rule, goal.start, goal.stop⟩ symbol =
        some (.again f') ∧ f'.goal = f.goal ∧ f'.alternative = f.alternative ∧
      (l.takeBack = none → f'.layout = none) ∧
        ∀ l', l.takeBack = some l' → ∃ next, f'.Lays (.ofInput g input) goal l' next ∧
          Ready (.ofInput g input) goal l' next := by
  obtain ⟨walker, hlays, _, _, -, hwalks⟩ := h.takeUp hready hgoal hsound htodo
  obtain ⟨upper, hnext, -, -⟩ := Candidates.next?_eq hg hwalks.inRange
  rw [hwalks.left_eq, Ends.toList_of_next?_eq_none hends, List.head?_nil] at hnext
  have hlays' := (hlays.putBack hsound.dot_eq { walker with upper := upper }).dropWalker
  obtain ⟨f', hback, hgoal', halternative, hidle, hlaid⟩ := hlays'.backtrack?_eq hsound.dot_eq
  refine ⟨f', ?_, hgoal'.trans (takeUp_goal ..), halternative.trans (takeUp_alternative ..), hidle,
    hlaid⟩
  simp only [place?, hlays.getElem?_candidates hsound.dot_eq, hnext, hback, Option.bind_eq_bind,
    Option.bind_some]

/-- The walker of the next symbol gives the end that the layout has next. -/
theorem Lays.place?_of_next?_eq_some (hg : g.WellFormed)
    (h : f.Lays (.ofInput g input) goal l next) (hready : Ready (.ofInput g input) goal l next)
    (hgoal : goal.Sound g input) (hsound : l.Sound g input above goal stops)
    (htodo : l.todo = symbol :: todo) {ends : Ends} (hends : l.ends.next? = some (stop, ends)) :
    ∃ (f' : OpenNode) (walker : Candidates),
      f.place? (.ofInput g input) ⟨l.rule, goal.start, goal.stop⟩ symbol =
          f'.tryStop? (.ofInput g input) ⟨l.rule, goal.start, goal.stop⟩ symbol stop ∧
        f'.goal = f.goal ∧ f'.alternative = f.alternative ∧
          f'.Lays (.ofInput g input) goal { l with ends := ends } (some walker) ∧
            Ready (.ofInput g input) goal { l with ends := ends } (some walker) := by
  obtain ⟨walker, hlays, _, _, htodo', hwalks⟩ := h.takeUp hready hgoal hsound htodo
  obtain ⟨upper, hnext, hrange, hleft⟩ := Candidates.next?_eq hg hwalks.inRange
  rw [hwalks.left_eq, Ends.toList_of_next?_eq_some hends] at hnext hleft
  have hlays' := hlays.putBack hsound.dot_eq { walker with upper := upper }
  refine ⟨(f.takeUp ⟨l.rule, goal.start, goal.stop⟩ symbol).putBack { walker with upper := upper },
    _, ?_, takeUp_goal .., takeUp_alternative .., hlays'.update ends, _, _, htodo',
    hwalks.symbol_eq, hwalks.pos_eq, hrange, hleft⟩
  simp only [place?, hlays.getElem?_candidates hsound.dot_eq, hnext, Option.bind_eq_bind,
    Option.bind_some, List.head?_cons]

/-- The tree of a node is the tree of the layout. -/
theorem Lays.node?_eq (hg : g.WellFormed) (h : f.Lays (.ofInput g input) goal l next)
    (hgoal : goal.Sound g input) (hsound : l.Sound g input above goal stops)
    (heq : f.goal = goal) :
    f.node? (.ofInput g input) ⟨l.rule, goal.start, goal.stop⟩ =
      some (l.node (.ofInput g input) goal) := by
  have hname : (Extents.ofInput g input).chart.grammar.nonterms[goal.nonterm]? =
      some (g.name goal.nonterm) := Grammar.getElem?_nonterms hgoal.nonterm_lt
  have htext : (Extents.ofInput g input).chart.grammar.ruleText? l.rule =
      some (g.ruleText l.rule) := Grammar.ruleText?_eq hg (hsound.rule_lt hg)
  simp only [node?, heq, hname, htext, h.children, Option.bind_eq_bind, Option.bind_some]
  rfl

end Turns

end OpenNode

/-! ### Assemblies and searches -/

/-- A non-terminal that may begin somewhere has a rule. -/
theorem Grammar.Begins.alternativesOf_ne_nil {g : Grammar} {input : Array Char} {id pos : Nat}
    (hg : g.WellFormed) (h : g.Begins input id pos) : g.alternativesOf id ≠ [] := by
  cases h with
  | start => exact hg.productive _ (Builder.mem_used_start g.start g.rules)
  | inside _ hindex hbody _ =>
    refine hg.productive _ (Builder.mem_used_of_mem_body (Grammar.rule_mem hindex) ?_)
    rw [← Array.mem_toList_iff, hbody]
    exact List.mem_append_right _ List.mem_cons_self

/-- Lays the next symbol of the layout `l` of the top goal up to `stop`, which is allowed. -/
def Search.commit (x : Extents) (s : Search) (l : Layout) (symbol : Symbol) (stop : Nat) :
    Search :=
  match symbol with
  | .terminal t => s.relay (some (l.lay x s.top.goal stop (x.leaf t l.pos stop)))
  | .nonterm id => s.pursue x l ⟨id, l.pos, stop⟩

/-- A move of a search whose top goal has a symbol to lay. -/
theorem Search.step_of_todo_eq_cons {x : Extents} {s : Search} {l : Layout} {symbol : Symbol}
    {todo : List Symbol} (hl : s.top.layout = some l) (htodo : l.todo = symbol :: todo) :
    s.step x =
      match l.ends.next? with
      | none => .running (s.relay l.takeBack)
      | some (stop, ends) => .running (s.tryEnd x { l with ends := ends } symbol todo stop) := by
  rw [step]
  simp only [hl]
  split
  · rename_i heq
    rw [htodo] at heq
    cases heq
  · rename_i hends
    rw [hends]
  · rename_i symbol' todo' stop ends heq hends
    obtain ⟨rfl, rfl⟩ := List.cons.inj (htodo.symm.trans heq)
    rw [hends]

namespace Assembly

/-- Tells that an assembly has come as far as a search: what is returned may not have been taken
over yet. -/
inductive Simulates (g : Grammar) (input : Array Char) : Assembly → Search → Prop
  | working {f : OpenNode} {nodes : List OpenNode} {top : Frame} {below : List Waiting}
    {active : Std.HashSet Goal} {room : Nat} (htop : f.Follows (.ofInput g input) top)
    (hbelow : List.Forall₂ (OpenNode.Waits (.ofInput g input)) nodes below) :
    Simulates g input ⟨f :: nodes, active, none⟩ ⟨top, below, active, room⟩
  | returned {f : OpenNode} {nodes : List OpenNode} {w : Waiting} {below : List Waiting}
    {active : Std.HashSet Goal} {room : Nat} {tree : Option ParseTree} {above : List Goal}
    {next : Goal} (htop : f.Waits (.ofInput g input) w) (hw : w.Sound g input above next)
    (hbelow : List.Forall₂ (OpenNode.Waits (.ofInput g input)) nodes below) :
    Simulates g input ⟨f :: nodes, active, some tree⟩
      ⟨w.resume (.ofInput g input) tree, below, active, room⟩

/-- Tells that the outcome of a turn is the outcome of a move. -/
def Outcome.Simulates (g : Grammar) (input : Array Char) : Outcome → Progress → Prop
  | .running a, .running s => a.Simulates g input s
  | .finished tree, .finished tree' => tree = tree'
  | _, _ => False

section Turns

variable {g : Grammar} {input : Array Char} {root : Goal} {f f' : OpenNode}
  {nodes : List OpenNode} {top : Frame} {below : List Waiting} {active : Std.HashSet Goal}
  {room : Nat} {l : Layout} {tree : Option ParseTree}

/-- What a node has come to is handed down. -/
theorem simulates_done (hs : Search.Sound g input root ⟨top, below, active, room⟩)
    (htop : f.Follows (.ofInput g input) top)
    (hbelow : List.Forall₂ (OpenNode.Waits (.ofInput g input)) nodes below) :
    Outcome.Simulates g input (settle ⟨f :: nodes, active, none⟩ f.goal nodes (.done tree))
      (Search.deliver (.ofInput g input) ⟨top, below, active, room⟩ tree) := by
  rw [htop.goal]
  cases hbelow with
  | nil => rfl
  | cons hwaits hbelow => exact .returned hwaits hs.below.1 hbelow

/-- A node goes on with the layout that the search goes on with. -/
theorem simulates_again (htop : f.Follows (.ofInput g input) top)
    (hbelow : List.Forall₂ (OpenNode.Waits (.ofInput g input)) nodes below)
    (hgoal : f'.goal = f.goal) (halternative : f'.alternative = f.alternative)
    {layout : Option Layout} (hidle : layout = none → f'.layout = none)
    (hlays : ∀ l, layout = some l → ∃ next, f'.Lays (.ofInput g input) top.goal l next ∧
      OpenNode.Ready (.ofInput g input) top.goal l next) :
    Outcome.Simulates g input (settle ⟨f :: nodes, active, none⟩ f.goal nodes (.again f'))
      (.running (Search.relay ⟨top, below, active, room⟩ layout)) := by
  have huntried := htop.untried
  rw [← halternative] at huntried
  exact .working ⟨hgoal.trans htop.goal, huntried, hidle, hlays⟩ hbelow

/-- The next alternative is tried as the search tries the next rule. -/
theorem exists_tryAlternative? (hg : g.WellFormed)
    (hs : Search.Sound g input root ⟨top, below, active, room⟩)
    (htop : f.Follows (.ofInput g input) top)
    (hbelow : List.Forall₂ (OpenNode.Waits (.ofInput g input)) nodes below)
    (hnone : top.layout = none) :
    ∃ turn, f.tryAlternative? (.ofInput g input) = some turn ∧
      Outcome.Simulates g input (settle ⟨f :: nodes, active, none⟩ f.goal nodes turn)
        (Search.tryRule (.ofInput g input) ⟨top, below, active, room⟩) := by
  have halternatives :
      (Extents.ofInput g input).chart.grammar.alternatives[top.goal.nonterm]? =
        some (g.alternativesOf top.goal.nonterm) :=
    Grammar.getElem?_alternatives (hs.top.goal.begins.alternativesOf_ne_nil hg)
  have huntried : (g.alternativesOf top.goal.nonterm).drop f.alternative = top.untried :=
    htop.untried
  have hrules := hs.top.rules
  rw [OpenNode.tryAlternative?, htop.goal, halternatives, Search.tryRule]
  simp only [Option.bind_eq_bind, Option.bind_some, ← List.head?_drop, huntried]
  cases heq : top.untried with
  | nil =>
    refine ⟨_, rfl, ?_⟩
    rw [← htop.goal]
    exact simulates_done hs htop hbelow
  | cons rule untried =>
    rw [heq] at huntried hrules
    have hrule := (hg.mem_alternativesOf_iff.1 hrules.mem_alternativesOf).1
    have hspans : (Extents.ofInput g input).chart.spans? rule top.goal.start top.goal.stop =
        some ((Extents.ofInput g input).chart.spans rule top.goal.start top.goal.stop) :=
      Chart.spans?_eq hrule hs.top.goal.stop_le
    have hrest : (g.alternativesOf top.goal.nonterm).drop (f.alternative + 1) = untried := by
      rw [← List.tail_drop, huntried, List.tail_cons]
    simp only [List.head?_cons, hspans, Option.bind_some]
    cases (Extents.ofInput g input).chart.spans rule top.goal.start top.goal.stop with
    | false =>
      refine ⟨_, rfl, .working ⟨rfl, hrest, fun _ => ?_, ?_⟩ hbelow⟩
      · exact htop.idle hnone
      · rintro _ ⟨⟩
    | true =>
      refine ⟨_, rfl, .working ⟨rfl, hrest, ?_, ?_⟩ hbelow⟩
      · rintro ⟨⟩
      · rintro _ ⟨⟩
        exact ⟨none, OpenNode.lays_restart
          { f with goal := top.goal, alternative := f.alternative + 1 } rule⟩

/-- A rule whose symbols are all laid is finished, or its last symbol is taken back. -/
theorem exists_finish? (hg : g.WellFormed)
    (hs : Search.Sound g input root ⟨top, below, active, room⟩)
    (htop : f.Follows (.ofInput g input) top)
    (hbelow : List.Forall₂ (OpenNode.Waits (.ofInput g input)) nodes below)
    (hl : top.layout = some l) (htodo : l.todo = []) :
    ∃ turn, f.advance? (.ofInput g input) = some turn ∧
      Outcome.Simulates g input (settle ⟨f :: nodes, active, none⟩ f.goal nodes turn)
        (Search.step (.ofInput g input) ⟨top, below, active, room⟩) := by
  have hsound := hs.top.layout l hl
  obtain ⟨next, hlays, hready⟩ := htop.lays l hl
  have hget : (Extents.ofInput g input).chart.grammar.rules[l.rule]? = some (g.rule l.rule) :=
    Grammar.getElem?_rules (hsound.rule_lt hg)
  have hend : f.dot = (g.rule l.rule).body.size := by
    rw [hlays.dot, hsound.dot_eq, ← Array.length_toList, hsound.body_eq, htodo]
    simp
  have hnode := hlays.node?_eq hg hs.top.goal hsound htop.goal
  rw [OpenNode.advance?, hlays.layout, Search.step]
  simp only [hget, hl, htodo, hlays.pos, if_pos hend, Option.bind_eq_bind, Option.bind_some]
  by_cases hpos : l.pos = top.goal.stop
  · rw [if_pos hpos, if_pos hpos, hnode, Option.bind_some]
    exact ⟨_, rfl, simulates_done hs htop hbelow⟩
  · -- No walker has been taken up, as there is no symbol for it.
    obtain rfl : next = none := by
      cases next with
      | none => rfl
      | some walker =>
        obtain ⟨symbol, todo, htodo', -⟩ := hready
        rw [htodo] at htodo'
        cases htodo'
    obtain ⟨f', hback, hgoal, halternative, hidle, hlays'⟩ :=
      hlays.backtrack?_eq hsound.dot_eq
    rw [if_neg hpos, if_neg hpos, hback, Option.bind_some]
    exact ⟨_, rfl, simulates_again htop hbelow hgoal halternative hidle hlays'⟩

/-- The node waits for a child that is put on top, or that is refused as it is on the stack. -/
theorem simulates_child (hg : g.WellFormed)
    (hs : Search.Sound g input root ⟨top, below, active, room⟩)
    (htop : f.Follows (.ofInput g input) top)
    (hbelow : List.Forall₂ (OpenNode.Waits (.ofInput g input)) nodes below)
    (hgoal : f'.goal = f.goal) (halternative : f'.alternative = f.alternative)
    {walker : Candidates} (hlays : f'.Lays (.ofInput g input) top.goal l (some walker))
    (hready : OpenNode.Ready (.ofInput g input) top.goal l (some walker))
    (hrules : RulesLeft g input (below.map Waiting.goal) top.goal [l.rule] top.untried)
    {id stop : Nat} {todo : List Symbol} (htodo : l.todo = .nonterm id :: todo)
    (hsound : l.Sound g input (top.goal :: below.map Waiting.goal) top.goal
      (stop :: l.ends.toList)) :
    Outcome.Simulates g input
      (settle ⟨f :: nodes, active, none⟩ f.goal nodes (.child (f'.await stop) ⟨id, l.pos, stop⟩))
      (.running (Search.pursue (.ofInput g input) ⟨top, below, active, room⟩ l
        ⟨id, l.pos, stop⟩)) := by
  have huntried := htop.untried
  rw [← halternative] at huntried
  have hwaits : (f'.await stop).Waits (.ofInput g input) ⟨top.goal, top.untried, l, stop⟩ :=
    ⟨hgoal.trans htop.goal, huntried, ⟨walker, hlays.await stop, hready⟩, rfl⟩
  have hw : Waiting.Sound g input (below.map Waiting.goal) ⟨id, l.pos, stop⟩
      ⟨top.goal, top.untried, l, stop⟩ :=
    ⟨hs.top.goal, hs.top.fresh, hrules, hsound, id, todo, htodo, rfl⟩
  by_cases hactive : (⟨id, l.pos, stop⟩ : Goal) ∈ active
  · rw [Search.pursue, settle, if_pos (by simpa using hactive), if_pos (by simp [hactive])]
    exact .returned hwaits hw hbelow
  · -- There is room for a goal that is not on the stack.
    have hnext := hsound.goal_next hg hs.top.goal htodo
    have hpos : 0 < room := hs.room_pos hnext fun hmem => hactive ((hs.active _).2 hmem)
    rw [Search.pursue, settle, if_neg (by simpa using hactive),
      if_neg (by simp [hactive, Nat.ne_of_gt hpos])]
    refine .working ⟨rfl, rfl, fun _ => rfl, ?_⟩ (.cons hwaits hbelow)
    rintro _ ⟨⟩

/-- An end that is allowed for the next symbol is committed to as the search does. -/
theorem exists_commit? (hg : g.WellFormed)
    (hs : Search.Sound g input root ⟨top, below, active, room⟩)
    (htop : f.Follows (.ofInput g input) top)
    (hbelow : List.Forall₂ (OpenNode.Waits (.ofInput g input)) nodes below)
    (hgoal : f'.goal = f.goal) (halternative : f'.alternative = f.alternative)
    {walker : Candidates} (hlays : f'.Lays (.ofInput g input) top.goal l (some walker))
    (hready : OpenNode.Ready (.ofInput g input) top.goal l (some walker))
    (hrules : RulesLeft g input (below.map Waiting.goal) top.goal [l.rule] top.untried)
    {symbol : Symbol} {todo : List Symbol} {stop : Nat} (htodo : l.todo = symbol :: todo)
    (hsound : l.Sound g input (top.goal :: below.map Waiting.goal) top.goal
      (stop :: l.ends.toList)) :
    ∃ turn, f'.commit? (.ofInput g input) symbol stop = some turn ∧
      Outcome.Simulates g input (settle ⟨f :: nodes, active, none⟩ f.goal nodes turn)
        (.running (Search.commit (.ofInput g input) ⟨top, below, active, room⟩ l symbol stop)) := by
  cases symbol with
  | terminal t =>
    have hspans := (hsound.ends _ _ htodo).spans stop List.mem_cons_self
    obtain ⟨hle, hstop, -⟩ := hspans.generates (hsound.pos_le hg hs.top.goal.begins)
    have hleaf := Extents.leaf?_eq (g := g) (t := t) hle hstop
    have hlaid := hlays.lay hready stop ((Extents.ofInput g input).leaf t l.pos stop)
    simp only [OpenNode.commit?, hlays.pos, hleaf]
    refine ⟨_, rfl, simulates_again htop hbelow ?_ ?_ ?_ ?_⟩
    · exact hgoal
    · exact halternative
    · rintro ⟨⟩
    · rintro _ ⟨⟩
      exact ⟨_, hlaid⟩
  | nonterm id =>
    simp only [OpenNode.commit?, hlays.pos]
    exact ⟨_, rfl, simulates_child hg hs htop hbelow hgoal halternative hlays hready hrules htodo
      hsound⟩

/-- An end for the next symbol is tried as the search tries it. -/
theorem exists_tryStop? (hg : g.WellFormed)
    (hs : Search.Sound g input root ⟨top, below, active, room⟩)
    (htop : f.Follows (.ofInput g input) top)
    (hbelow : List.Forall₂ (OpenNode.Waits (.ofInput g input)) nodes below)
    (hl : top.layout = some l) {symbol : Symbol} {todo : List Symbol}
    (htodo : l.todo = symbol :: todo) {stop : Nat} {ends : Ends}
    (hends : l.ends.next? = some (stop, ends)) (hgoal : f'.goal = f.goal)
    (halternative : f'.alternative = f.alternative) {walker : Candidates}
    (hlays : f'.Lays (.ofInput g input) top.goal { l with ends := ends } (some walker))
    (hready : OpenNode.Ready (.ofInput g input) top.goal { l with ends := ends } (some walker)) :
    ∃ turn, f'.tryStop? (.ofInput g input) ⟨l.rule, top.goal.start, top.goal.stop⟩ symbol stop =
        some turn ∧
      Outcome.Simulates g input (settle ⟨f :: nodes, active, none⟩ f.goal nodes turn)
        (.running (Search.tryEnd (.ofInput g input) ⟨top, below, active, room⟩
          { l with ends := ends } symbol todo stop)) := by
  have hsound := hs.top.layout l hl
  have hrules := hs.top.rules
  rw [show top.layout = some l from hl] at hrules
  rw [Ends.toList_of_next?_eq_some hends] at hsound
  have hleft := hsound.ends symbol todo htodo
  have hspans := hleft.spans stop List.mem_cons_self
  have hstop := hleft.le_limit stop List.mem_cons_self
  have hupdated := hsound.update ends hsound.memo
  have htry := OpenNode.tryStop?_eq hg hs.top.goal hupdated htodo hstop hlays.dot hlays.memo
  obtain ⟨memo, hsame, hagrees, -⟩ := hupdated.allows hg hs.top.goal.begins htodo hspans
  rw [htry, Search.tryEnd]
  -- Only the verdict and the memo of the look-ahead matter from here on.
  generalize Layout.allows (Extents.ofInput g input) top.goal { l with ends := ends } todo stop
    = outcome at hsame
  obtain ⟨allowed, l'⟩ := outcome
  obtain rfl : l' = { l with ends := ends, memo := memo } := hsame
  have hnoted := hlays.note memo
  cases allowed with
  | false =>
    refine ⟨_, rfl, simulates_again htop hbelow ?_ ?_ ?_ ?_⟩
    · exact hgoal
    · exact halternative
    · rintro ⟨⟩
    · rintro _ ⟨⟩
      exact ⟨_, hnoted, hready⟩
  | true =>
    refine exists_commit? hg hs htop hbelow ?_ ?_ hnoted ?_ hrules htodo ?_
    · exact hgoal
    · exact halternative
    · exact hready
    · exact hsound.update ends hagrees

/-- The next symbol is laid up to the next end, or waited for, or the symbol before is taken
back. -/
theorem exists_place? (hg : g.WellFormed)
    (hs : Search.Sound g input root ⟨top, below, active, room⟩)
    (htop : f.Follows (.ofInput g input) top)
    (hbelow : List.Forall₂ (OpenNode.Waits (.ofInput g input)) nodes below)
    (hl : top.layout = some l) {symbol : Symbol} {todo : List Symbol}
    (htodo : l.todo = symbol :: todo) :
    ∃ turn, f.advance? (.ofInput g input) = some turn ∧
      Outcome.Simulates g input (settle ⟨f :: nodes, active, none⟩ f.goal nodes turn)
        (Search.step (.ofInput g input) ⟨top, below, active, room⟩) := by
  have hsound := hs.top.layout l hl
  obtain ⟨next, hlays, hready⟩ := htop.lays l hl
  have hget : (Extents.ofInput g input).chart.grammar.rules[l.rule]? = some (g.rule l.rule) :=
    Grammar.getElem?_rules (hsound.rule_lt hg)
  have hne : ¬f.dot = (g.rule l.rule).body.size := by
    rw [hlays.dot]
    exact Nat.ne_of_lt (hsound.dot_lt htodo)
  have hsymbol : (g.rule l.rule).body[f.dot]? = some symbol := by
    rw [hlays.dot, ← Array.getElem?_toList, ← List.head?_drop, hsound.drop_dot, htodo,
      List.head?_cons]
  rw [OpenNode.advance?, hlays.layout, Search.step_of_todo_eq_cons hl htodo]
  simp only [hget, if_neg hne, hsymbol, Option.bind_eq_bind, Option.bind_some]
  cases hends : l.ends.next? with
  | none =>
    obtain ⟨f', hplace, hgoal, halternative, hidle, hlays'⟩ :=
      hlays.place?_of_next?_eq_none hg hready hs.top.goal hsound htodo hends
    exact ⟨_, hplace, simulates_again htop hbelow hgoal halternative hidle hlays'⟩
  | some answer =>
    obtain ⟨stop, ends⟩ := answer
    obtain ⟨f', walker, hplace, hgoal, halternative, hlays', hready'⟩ :=
      hlays.place?_of_next?_eq_some hg hready hs.top.goal hsound htodo hends
    rw [hplace]
    exact exists_tryStop? hg hs htop hbelow hl htodo hends hgoal halternative hlays' hready'

end Turns

/-! ### Turns and moves -/

variable {g : Grammar} {input : Array Char} {root : Goal} {a : Assembly} {s : Search}

/-- **A turn of an assembly is a move of the search**, if nothing is to be taken over. -/
theorem exists_step?_of_working (hg : g.WellFormed) (hs : s.Sound g input root)
    (h : a.Simulates g input s) (hworking : a.returned = none) :
    ∃ outcome, a.step? (.ofInput g input) = some outcome ∧
      outcome.Simulates g input (s.step (.ofInput g input)) := by
  cases h with
  | returned => cases hworking
  | @working f nodes top below active room htop hbelow =>
    have hturn : ∃ turn, f.advance? (.ofInput g input) = some turn ∧
        Outcome.Simulates g input (settle ⟨f :: nodes, active, none⟩ f.goal nodes turn)
          (Search.step (.ofInput g input) ⟨top, below, active, room⟩) := by
      cases hl : top.layout with
      | none =>
        rw [OpenNode.advance?, htop.idle hl, Search.step]
        simp only [hl]
        exact exists_tryAlternative? hg hs htop hbelow hl
      | some l =>
        cases htodo : l.todo with
        | nil => exact exists_finish? hg hs htop hbelow hl htodo
        | cons symbol todo => exact exists_place? hg hs htop hbelow hl htodo
    obtain ⟨turn, hadvance, hsimulates⟩ := hturn
    refine ⟨_, ?_, hsimulates⟩
    simp only [step?, hadvance, Option.bind_eq_bind, Option.bind_some]

/-- What is returned is taken over; the search has done so already. -/
theorem exists_step?_of_returned (h : a.Simulates g input s) {tree : Option ParseTree}
    (hreturned : a.returned = some tree) :
    ∃ a', a.step? (.ofInput g input) = some (.running a') ∧ a'.Simulates g input s ∧
      a'.returned = none := by
  cases h with
  | working => cases hreturned
  | @returned f nodes w below active room tree' above next htop hw hbelow =>
    obtain ⟨walker, hlays, hready⟩ := htop.lays
    cases tree' with
    | none =>
      refine ⟨_, rfl, .working ⟨htop.goal, htop.untried, ?_, ?_⟩ hbelow, rfl⟩
      · rintro ⟨⟩
      · rintro _ ⟨⟩
        exact ⟨_, hlays, hready⟩
    | some child =>
      have hlaid := hlays.lay hready f.pending child
      rw [htop.pending] at hlaid
      refine ⟨_, rfl, .working ⟨htop.goal, htop.untried, ?_, ?_⟩ hbelow, rfl⟩
      · rintro ⟨⟩
      · rintro _ ⟨⟩
        rw [htop.pending]
        exact ⟨_, hlaid⟩

/-- At first, an assembly has come as far as the search. -/
theorem simulates_start (goal : Goal) :
    (start goal).Simulates g input (Search.start (.ofInput g input) goal) := by
  refine .working ⟨rfl, rfl, fun _ => rfl, ?_⟩ .nil
  rintro _ ⟨⟩

/-! ### Turns one after another -/

/-- From a state in which nothing is to be taken over, some number of turns leads to the end. The
induction is along the moves of the search. -/
theorem exists_moves?_of_working (hg : g.WellFormed) (hs : s.Sound g input root)
    (h : a.Simulates g input s) (hworking : a.returned = none) :
    ∃ count, moves? (.ofInput g input) count (.running a) =
      some (.finished (s.run (.ofInput g input))) := by
  fun_induction Search.run (Extents.ofInput g input) s generalizing a with
  | case1 s tree hstep =>
    obtain ⟨outcome, hturn, houtcome⟩ := exists_step?_of_working hg hs h hworking
    rw [hstep] at houtcome
    cases outcome with
    | running => exact houtcome.elim
    | finished tree' =>
      obtain rfl : tree' = tree := houtcome
      refine ⟨1, ?_⟩
      simp only [moves?, hturn, Option.bind_eq_bind, Option.bind_some]
  | case2 s s' hstep _ ih =>
    have hs' := Search.sound_step hg hs
    rw [hstep] at hs'
    obtain ⟨outcome, hturn, houtcome⟩ := exists_step?_of_working hg hs h hworking
    rw [hstep] at houtcome
    cases outcome with
    | finished => exact houtcome.elim
    | running a' =>
      cases hreturned : a'.returned with
      | none =>
        obtain ⟨count, hcount⟩ := ih hs' houtcome hreturned
        refine ⟨count + 1, ?_⟩
        simp only [moves?, hturn, hcount, Option.bind_eq_bind, Option.bind_some]
      | some tree =>
        -- One more turn takes over what is returned, and the search stays where it is.
        obtain ⟨a'', hturn', hsimulates, hworking'⟩ :=
          exists_step?_of_returned houtcome hreturned
        obtain ⟨count, hcount⟩ := ih hs' hsimulates hworking'
        refine ⟨count + 2, ?_⟩
        simp only [moves?, hturn, hturn', hcount, Option.bind_eq_bind, Option.bind_some]

/-- **An assembly ends with the tree that the search finds**, with every number checked on the
way. -/
theorem exists_moves?_eq_finished (hg : g.WellFormed) (hroot : root.Sound g input) :
    ∃ count, moves? (.ofInput g input) count (.running (start root)) =
      some (.finished ((Search.start (.ofInput g input) root).run (.ofInput g input))) :=
  exists_moves?_of_working hg (Search.sound_start hroot) (simulates_start root) rfl

end Assembly

end Earley
