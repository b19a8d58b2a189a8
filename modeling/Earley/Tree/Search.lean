/-
  `Search` — the search for the preferred tree.

  To find a tree for a non-terminal over a span, its rules are tried in the order of their
  declaration. A rule that the chart has complete over the span is laid over it from left to
  right, each symbol taking the longest stretch that leaves room for the rest. Terminals become
  leaves. A non-terminal becomes a goal of its own, which is worked on first, on top of a stack;
  when it is done, with a tree or without one, the goal below goes on.

  A goal that is on the stack already is refused, since a tree may not hold itself. That is why a
  goal can fail although the chart has it, and why the symbols laid before may have to be taken
  back and laid over shorter stretches.

  `Search.step` makes one such move. A search starts with an empty stack but for one goal, and
  with room for as many goals as there are different ones, so that the room never gets short.
-/
import Earley.Tree.Basic
import Earley.Tree.Extents

namespace Earley

/-- A symbol that has been laid: where it begins, its tree, and the ends that were not tried. -/
structure Laid where
  symbol : Symbol
  pos : Nat
  tree : ParseTree
  ends : Ends

/-- A rule that is being laid over a span. -/
structure Layout where
  rule : Nat
  /-- The symbols that are laid, the last one first. -/
  laid : List Laid
  /-- The number of symbols that are laid. -/
  dot : Nat
  /-- The symbols that are not laid. -/
  todo : List Symbol
  /-- Where the next symbol begins. -/
  pos : Nat
  /-- The ends of the next symbol that were not tried. -/
  ends : Ends
  /-- What is known to fit. -/
  memo : Memo

/-- The work on a goal: the rules not tried yet, and the one that is being laid, if one is. -/
structure Frame where
  goal : Goal
  untried : List Nat
  layout : Option Layout

/-- The work on a goal that waits for the tree of a non-terminal, from the position reached to
`stop`. -/
structure Waiting where
  goal : Goal
  untried : List Nat
  layout : Layout
  stop : Nat

/-- The state of a search: a stack of goals of which only the top one is worked on. -/
structure Search where
  top : Frame
  /-- The goals below, the nearest first. -/
  below : List Waiting
  /-- The goals on the stack. -/
  active : Std.HashSet Goal
  /-- How many more goals the stack may hold. -/
  room : Nat

/-- The outcome of a move. -/
inductive Progress
  | running (s : Search)
  | finished (tree : Option ParseTree)

/-! ### The moves -/

namespace Layout

/-- The ends to try for the first of `symbols` at `pos`. -/
def endsOf (x : Extents) (goal : Goal) (symbols : List Symbol) (pos : Nat) : Ends :=
  match symbols with
  | [] => .empty
  | symbol :: _ => x.candidates symbol pos goal.stop

/-- A rule with nothing laid. -/
def ofRule (x : Extents) (goal : Goal) (rule : Nat) : Layout :=
  let body := (x.chart.grammar.rule rule).body.toList
  ⟨rule, [], 0, body, goal.start, endsOf x goal body goal.start, ∅⟩

/-- Lays the next symbol up to `stop`, with its tree. -/
def lay (x : Extents) (goal : Goal) (l : Layout) (stop : Nat) (tree : ParseTree) : Layout :=
  match l.todo with
  | [] => l
  | symbol :: todo =>
    { l with
      laid := ⟨symbol, l.pos, tree, l.ends⟩ :: l.laid
      dot := l.dot + 1
      todo := todo
      pos := stop
      ends := endsOf x goal todo stop }

/-- Takes the last symbol back; if none is laid, the rule is given up. -/
def takeBack (l : Layout) : Option Layout :=
  match l.laid with
  | [] => none
  | last :: laid =>
    some { l with
      laid := laid
      dot := l.dot - 1
      todo := last.symbol :: l.todo
      pos := last.pos
      ends := last.ends }

/-- Tells whether the next symbol may end at `stop`, if `todo` follows it: the chart has to agree,
and the rest has to fit. Gives the layout with what was found. -/
def allows (x : Extents) (goal : Goal) (l : Layout) (todo : List Symbol) (stop : Nat) :
    Bool × Layout :=
  if x.reaches goal l.rule (l.dot + 1) stop then
    let memo := l.memo
    let l := { l with memo := ∅ }
    let (found, memo) := x.fits goal l.rule todo (l.dot + 1) stop memo
    (found, { l with memo := memo })
  else (false, l)

/-- The node for a rule that is laid to its end. -/
def node (x : Extents) (goal : Goal) (l : Layout) : ParseTree :=
  let g := x.chart.grammar
  .node (g.name goal.nonterm) (g.ruleText l.rule) ⟨goal.start, goal.stop⟩
    (l.laid.reverse.map Laid.tree)

end Layout

/-- The leaf for a terminal from `start` to `stop`. -/
def Extents.leaf (x : Extents) (t : Terminal) (start stop : Nat) : ParseTree :=
  .leaf t.display (String.ofList (x.chart.input.extract start stop).toList) ⟨start, stop⟩

/-- The work on a goal before any rule is tried. -/
def Frame.ofGoal (x : Extents) (goal : Goal) : Frame :=
  ⟨goal, x.chart.grammar.alternativesOf goal.nonterm, none⟩

/-- The work on a goal after the wait, with the tree that was waited for or without one. -/
def Waiting.resume (x : Extents) (w : Waiting) (tree : Option ParseTree) : Frame :=
  match tree with
  | some tree => ⟨w.goal, w.untried, some (w.layout.lay x w.goal w.stop tree)⟩
  | none => ⟨w.goal, w.untried, some w.layout⟩

namespace Search

/-- Goes on with another layout, or none, for the top goal. -/
def relay (s : Search) (layout : Option Layout) : Search :=
  { s with top := { s.top with layout := layout } }

/-- Ends the work on the top goal and hands the result down. -/
def deliver (x : Extents) (s : Search) (tree : Option ParseTree) : Progress :=
  match s.below with
  | [] => .finished tree
  | w :: below =>
    .running ⟨w.resume x tree, below, s.active.erase s.top.goal, s.room + 1⟩

/-- Puts `goal` on top, for the next symbol of the top goal's layout `l`, unless it is refused. -/
def pursue (x : Extents) (s : Search) (l : Layout) (goal : Goal) : Search :=
  if s.active.contains goal || s.room == 0 then s.relay (some l)
  else
    ⟨.ofGoal x goal, ⟨s.top.goal, s.top.untried, l, goal.stop⟩ :: s.below, s.active.insert goal,
      s.room - 1⟩

/-- Tries the next rule for the top goal. -/
def tryRule (x : Extents) (s : Search) : Progress :=
  match s.top.untried with
  | [] => s.deliver x none
  | rule :: untried =>
    let goal := s.top.goal
    let layout :=
      if x.chart.spans rule goal.start goal.stop then some (Layout.ofRule x goal rule) else none
    .running { s with top := ⟨goal, untried, layout⟩ }

/-- Lays the next symbol of the layout `l` of the top goal up to `stop`, if that is allowed; `l`
has used this end up. -/
def tryEnd (x : Extents) (s : Search) (l : Layout) (symbol : Symbol) (todo : List Symbol)
    (stop : Nat) : Search :=
  let (allowed, l) := l.allows x s.top.goal todo stop
  if allowed then
    match symbol with
    | .terminal t => s.relay (some (l.lay x s.top.goal stop (x.leaf t l.pos stop)))
    | .nonterm id => s.pursue x l ⟨id, l.pos, stop⟩
  else s.relay (some l)

/-- One move of the search. -/
def step (x : Extents) (s : Search) : Progress :=
  match s.top.layout with
  | none => s.tryRule x
  | some l =>
    match l.todo, l.ends.next? with
    | [], _ =>
      if l.pos = s.top.goal.stop then s.deliver x (some (l.node x s.top.goal))
      else .running (s.relay l.takeBack)
    | _ :: _, none => .running (s.relay l.takeBack)
    | symbol :: todo, some (stop, ends) =>
      .running (s.tryEnd x { l with ends := ends } symbol todo stop)

/-- How many goals there are over the spans of an input of `length` characters. -/
def goalCount (g : Grammar) (length : Nat) : Nat :=
  g.nonterms.size * (length + 1) * (length + 2) / 2

/-- The search for a tree of `goal`, before the first move. -/
def start (x : Extents) (goal : Goal) : Search :=
  ⟨.ofGoal x goal, [], {goal}, goalCount x.chart.grammar x.chart.input.size - 1⟩

end Search

end Earley
