/-
  `Assembly` — putting a tree together, on a stack of open nodes.

  An open node lays the symbols of a rule over its span, one after another. It keeps the trees of
  the symbols that are laid, the walkers over their ends, the dot, and the position reached; each
  of these is changed by itself. For a terminal it makes a leaf. For a non-terminal it notes where
  that is to end (`pending`) and waits: a node for it is put on top of the stack, unless the stack
  has this node already. What a node comes to is handed to the one below it.

  If a walker has no other end, the symbol before is taken back and its walker is asked again
  (`backtrack?`). If there is no symbol before, the next rule is tried, from the start.

  `Assembly.step?` takes one turn of that: an alternative is tried or passed over, an end for the
  next symbol is tried, a rule is finished or given up, or a node takes over what it waited for.
  Every number is checked before it is used.
-/
import Earley.Tree.Candidates
import Earley.Tree.Checked

namespace Earley

/-- A node that is being put together. -/
structure OpenNode where
  goal : Goal
  /-- The number of the next alternative of the non-terminal. -/
  alternative : Nat
  /-- The rule that is being laid, if one is. -/
  layout : Option RuleSpan
  memo : Memo
  /-- One for each symbol that is laid, and one for the symbol that is being laid. -/
  candidates : Array Candidates
  /-- The trees of the symbols that are laid. -/
  children : Array ParseTree
  dot : Nat
  pos : Nat
  /-- Where the child ends that is waited for. -/
  pending : Nat

/-- What comes of a turn of an open node. -/
inductive Turn
  /-- The node goes on. -/
  | again (f : OpenNode)
  /-- The node waits for a child. -/
  | child (f : OpenNode) (goal : Goal)
  /-- The node is finished, with a tree or without one. -/
  | done (tree : Option ParseTree)

namespace OpenNode

/-- A node before any rule is tried. -/
def ofGoal (goal : Goal) : OpenNode :=
  ⟨goal, 0, none, ∅, #[], #[], 0, goal.start, goal.start⟩

/-- Starts to lay a rule. -/
def restart (f : OpenNode) (span : RuleSpan) : OpenNode :=
  { f with
    layout := some span
    memo := ∅
    candidates := #[]
    children := #[]
    dot := 0
    pos := f.goal.start }

/-- Takes up a walker over the ends of the next symbol, unless there is one. -/
def takeUp (f : OpenNode) (span : RuleSpan) (symbol : Symbol) : OpenNode :=
  if f.candidates.size = f.dot then
    { f with candidates := f.candidates.push (.upTo symbol f.pos span.stop) }
  else f

@[simp] theorem takeUp_goal (f : OpenNode) (span : RuleSpan) (symbol : Symbol) :
    (f.takeUp span symbol).goal = f.goal := by
  unfold takeUp
  split <;> rfl

@[simp] theorem takeUp_alternative (f : OpenNode) (span : RuleSpan) (symbol : Symbol) :
    (f.takeUp span symbol).alternative = f.alternative := by
  unfold takeUp
  split <;> rfl

/-- Puts the walker of the next symbol back after it has been asked. -/
def putBack (f : OpenNode) (walker : Candidates) : OpenNode :=
  { f with candidates := f.candidates.setIfInBounds f.dot walker }

/-- Drops the last walker, which has no other end. -/
def dropWalker (f : OpenNode) : OpenNode := { f with candidates := f.candidates.pop }

/-- Lays the next symbol up to `stop`, with its tree. -/
def lay (f : OpenNode) (stop : Nat) (tree : ParseTree) : OpenNode :=
  { f with children := f.children.push tree, pos := stop, dot := f.dot + 1 }

/-- Waits for the tree of the next symbol, up to `stop`. -/
def await (f : OpenNode) (stop : Nat) : OpenNode := { f with pending := stop }

/-- Takes the last symbol back, so that its walker can be asked again; gives the rule up if no
symbol is laid. -/
def backtrack? (f : OpenNode) : Option OpenNode :=
  match f.dot with
  | 0 => some { f with layout := none }
  | dot + 1 => do
    let walker ← f.candidates[dot]?
    some { f with dot := dot, children := f.children.pop, pos := walker.pos }

/-- Tries the next alternative: it is taken up if the chart has it complete over the span. -/
def tryAlternative? (x : Extents) (f : OpenNode) : Option Turn := do
  let rules ← x.chart.grammar.alternatives[f.goal.nonterm]?
  match rules[f.alternative]? with
  | none => some (.done none)
  | some rule => do
    let f := { f with alternative := f.alternative + 1 }
    if ← x.chart.spans? rule f.goal.start f.goal.stop then
      some (.again (f.restart ⟨rule, f.goal.start, f.goal.stop⟩))
    else some (.again f)

/-- The tree for a rule that is laid to its end. -/
def node? (x : Extents) (f : OpenNode) (span : RuleSpan) : Option ParseTree := do
  let name ← x.chart.grammar.nonterms[f.goal.nonterm]?
  let text ← x.chart.grammar.ruleText? span.rule
  some (.node name text ⟨span.start, span.stop⟩ f.children.toList)

/-- Lays the next symbol up to `stop`, or waits for it. -/
def commit? (x : Extents) (f : OpenNode) (symbol : Symbol) (stop : Nat) : Option Turn :=
  match symbol with
  | .terminal t => do
    let leaf ← x.leaf? t f.pos stop
    some (.again (f.lay stop leaf))
  | .nonterm id => some (.child (f.await stop) ⟨id, f.pos, stop⟩)

/-- Lays the next symbol up to `stop` if the chart has the dot behind it there and the symbols
after it fit. -/
def tryStop? (x : Extents) (f : OpenNode) (span : RuleSpan) (symbol : Symbol) (stop : Nat) :
    Option Turn := do
  let set ← x.chart.setAt? stop
  if set.contains ⟨span.rule, f.dot + 1, span.start⟩ then
    let (fits, memo) ← x.lookAhead? span (f.dot + 1) stop f.memo
    let f := { f with memo := memo }
    if fits then f.commit? x symbol stop else some (.again f)
  else some (.again f)

/-- Asks the walker of the next symbol for an end and tries that. -/
def place? (x : Extents) (f : OpenNode) (span : RuleSpan) (symbol : Symbol) : Option Turn := do
  let f := f.takeUp span symbol
  let walker ← f.candidates[f.dot]?
  let (next, walker) ← walker.next? x
  let f := f.putBack walker
  match next with
  | none => do
    let f ← f.dropWalker.backtrack?
    some (.again f)
  | some stop => f.tryStop? x span symbol stop

/-- A turn of an open node. -/
def advance? (x : Extents) (f : OpenNode) : Option Turn :=
  match f.layout with
  | none => f.tryAlternative? x
  | some span => do
    let rule ← x.chart.grammar.rules[span.rule]?
    if f.dot = rule.body.size then
      if f.pos = span.stop then do
        let tree ← f.node? x span
        some (.done (some tree))
      else do
        let f ← f.backtrack?
        some (.again f)
    else do
      let symbol ← rule.body[f.dot]?
      f.place? x span symbol

end OpenNode

/-- The nodes that are open, the one on top first. -/
structure Assembly where
  stack : List OpenNode
  /-- The non-terminals over spans that have a node on the stack. -/
  active : Std.HashSet Goal
  /-- What the node that was waited for has come to, until it is taken over. -/
  returned : Option (Option ParseTree)

namespace Assembly

/-- The outcome of a turn. -/
inductive Outcome
  | running (a : Assembly)
  | finished (tree : Option ParseTree)

/-- One node, before any rule is tried. -/
def start (goal : Goal) : Assembly := ⟨[.ofGoal goal], {goal}, none⟩

/-- The node `f` on top takes over what it waited for. -/
def takeOver (a : Assembly) (f : OpenNode) (below : List OpenNode) :
    Option ParseTree → Assembly
  | some tree => ⟨f.lay f.pending tree :: below, a.active, none⟩
  | none => ⟨f :: below, a.active, none⟩

/-- Goes on from the turn of the node on top, which stands for `goal`. -/
def settle (a : Assembly) (goal : Goal) (below : List OpenNode) : Turn → Outcome
  | .again f => .running ⟨f :: below, a.active, none⟩
  | .child f next =>
    if a.active.contains next then .running ⟨f :: below, a.active, some none⟩
    else .running ⟨.ofGoal next :: f :: below, a.active.insert next, none⟩
  | .done tree =>
    match below with
    | [] => .finished tree
    | _ :: _ => .running ⟨below, a.active.erase goal, some tree⟩

/-- One turn, with every number checked. -/
def step? (x : Extents) (a : Assembly) : Option Outcome :=
  match a.stack, a.returned with
  | [], _ => some (.finished none)
  | f :: below, some result => some (.running (a.takeOver f below result))
  | f :: below, none => do
    let turn ← f.advance? x
    some (a.settle f.goal below turn)

/-- The outcome of so many turns, one after another; nothing follows when the tree is finished. -/
def moves? (x : Extents) : Nat → Outcome → Option Outcome
  | 0, outcome => some outcome
  | _ + 1, .finished _ => none
  | count + 1, .running a => do
    let outcome ← a.step? x
    moves? x count outcome

end Assembly

end Earley
