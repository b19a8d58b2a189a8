/-
  `Checked` — the search for a tree, with every access checked.

  All through a search, rules, symbols, state sets and parts of the input are picked by number.
  `Search.step?` makes the moves of `Search.step`, and checks every number before it is used: it
  gives none as soon as a rule, a dot, a non-terminal or a position is not there, the ends of a
  part of the input are out of order, or the symbols of a layout are not those of its rule.
  Besides, it does not ask for room: a goal is refused only if it is on the stack.

  A search that is begun by `Search.start?` and goes on by these moves, one after another, is what
  `Search.moves?` counts.
-/
import Earley.Tree.Rebuild

namespace Earley

/-! ### Reading by number -/

namespace Grammar

/-- The name of a symbol, if there is such a non-terminal. -/
def symbolName? (g : Grammar) : Symbol → Option String
  | .nonterm id => g.nonterms[id]?
  | .terminal t => some t.display

/-- The form in which trees print a rule, if there is one with that number. -/
def ruleText? (g : Grammar) (index : Nat) : Option String := do
  let rule ← g.rules[index]?
  let head ← g.nonterms[rule.head]?
  let names ← rule.body.toList.mapM g.symbolName?
  some (ruleLine head names)

/-- The symbols of a rule from a dot on, if there is such a rule, and the dot is in it. -/
def bodyFrom? (g : Grammar) (index dot : Nat) : Option (List Symbol) := do
  let rule ← g.rules[index]?
  if dot ≤ rule.body.size then some (rule.body.toList.drop dot) else none

end Grammar

/-! ### Looking ahead -/

/-- Tells whether a rule is complete, if there are such a rule and such a position. -/
def Chart.spans? (c : Chart) (rule start stop : Nat) : Option Bool := do
  let r ← c.grammar.rules[rule]?
  let set ← c.setAt? stop
  some (set.contains ⟨rule, r.body.size, start⟩)

namespace Extents

/-- The ends to try for a symbol, if the part of the input that they are in is in order. -/
def candidates? (x : Extents) (symbol : Symbol) (pos limit : Nat) : Option Ends :=
  if pos ≤ limit ∧ limit ≤ x.chart.input.size then some (x.candidates symbol pos limit) else none

/-- Tells whether the chart holds a dot, if there is such a position. -/
def reaches? (x : Extents) (goal : Goal) (rule dot pos : Nat) : Option Bool := do
  let set ← x.chart.setAt? pos
  some (set.contains ⟨rule, dot, goal.start⟩)

/-- The leaf for a terminal, if the part of the input that it covers is in order. -/
def leaf? (x : Extents) (t : Terminal) (start stop : Nat) : Option ParseTree :=
  if start ≤ stop ∧ stop ≤ x.chart.input.size then some (x.leaf t start stop) else none

/-- Tries one end after another, as long as the trials have an answer. -/
def anyEnd? (p : Nat → Memo → Option (Bool × Memo)) (ends : Ends) (memo : Memo) :
    Option (Bool × Memo) :=
  match h : ends.next? with
  | none => some (false, memo)
  | some (stop, rest) => do
    have : rest.count < ends.count := by rw [Ends.count_of_next? h]; exact Nat.lt_succ_self _
    let (found, memo) ← p stop memo
    if found then some (true, memo) else anyEnd? p rest memo
termination_by ends.count

/-- Tells whether the symbols of a rule from a dot on can be laid up to the end of a goal, with
every number checked. -/
def fits? (x : Extents) (goal : Goal) (rule : Nat) :
    List Symbol → (dot pos : Nat) → Memo → Option (Bool × Memo)
  | [], dot, pos, memo =>
    if x.chart.grammar.bodyFrom? rule dot = some [] then some (pos == goal.stop, memo) else none
  | symbol :: symbols, dot, pos, memo =>
    if x.chart.grammar.bodyFrom? rule dot = some (symbol :: symbols) then
      match memo[(dot, pos)]? with
      | some known => some (known, memo)
      | none => do
        let ends ← x.candidates? symbol pos goal.stop
        let (found, memo) ← anyEnd? (fun stop memo => do
            if ← x.reaches? goal rule (dot + 1) stop then
              fits? x goal rule symbols (dot + 1) stop memo
            else some (false, memo))
          ends memo
        some (found, memo.insert (dot, pos) found)
    else none

end Extents

/-! ### Layouts and frames -/

namespace Layout

/-- The ends to try for the first of `symbols`, which are those of the rule from a dot on. -/
def endsOf? (x : Extents) (goal : Goal) (rule dot : Nat) (symbols : List Symbol) (pos : Nat) :
    Option Ends :=
  if x.chart.grammar.bodyFrom? rule dot = some symbols then
    match symbols with
    | [] => some .empty
    | symbol :: _ => x.candidates? symbol pos goal.stop
  else none

/-- A rule with nothing laid, if there is such a rule. -/
def ofRule? (x : Extents) (goal : Goal) (rule : Nat) : Option Layout := do
  let r ← x.chart.grammar.rules[rule]?
  let ends ← endsOf? x goal rule 0 r.body.toList goal.start
  some ⟨rule, [], 0, r.body.toList, goal.start, ends, ∅⟩

/-- Lays the next symbol up to `stop`, if there is one. -/
def lay? (x : Extents) (goal : Goal) (l : Layout) (stop : Nat) (tree : ParseTree) :
    Option Layout :=
  match l.todo with
  | [] => none
  | symbol :: todo => do
    let ends ← endsOf? x goal l.rule (l.dot + 1) todo stop
    some { l with
      laid := ⟨symbol, l.pos, tree, l.ends⟩ :: l.laid
      dot := l.dot + 1
      todo := todo
      pos := stop
      ends := ends }

/-- Takes the last symbol back, if the dot says how many are laid. -/
def takeBack? (l : Layout) : Option (Option Layout) :=
  match l.laid, l.dot with
  | [], 0 => some none
  | last :: laid, dot + 1 =>
    some (some { l with
      laid := laid
      dot := dot
      todo := last.symbol :: l.todo
      pos := last.pos
      ends := last.ends })
  | _, _ => none

/-- Tells whether the next symbol may end at `stop`, with every number checked. -/
def allows? (x : Extents) (goal : Goal) (l : Layout) (todo : List Symbol) (stop : Nat) :
    Option (Bool × Layout) := do
  if ← x.reaches? goal l.rule (l.dot + 1) stop then
    let (found, memo) ← x.fits? goal l.rule todo (l.dot + 1) stop l.memo
    some (found, { l with memo := memo })
  else some (false, l)

/-- The node for a rule that is laid to its end, if it has a name and the rule a text. -/
def node? (x : Extents) (goal : Goal) (l : Layout) : Option ParseTree := do
  let name ← x.chart.grammar.nonterms[goal.nonterm]?
  let text ← x.chart.grammar.ruleText? l.rule
  some (.node name text ⟨goal.start, goal.stop⟩ (l.laid.reverse.map Laid.tree))

end Layout

/-- The work on a goal before any rule is tried, if there is such a non-terminal. -/
def Frame.ofGoal? (x : Extents) (goal : Goal) : Option Frame := do
  let rules ← x.chart.grammar.alternatives[goal.nonterm]?
  some ⟨goal, rules, none⟩

/-- The work on a goal after the wait. -/
def Waiting.resume? (x : Extents) (w : Waiting) (tree : Option ParseTree) : Option Frame :=
  match tree with
  | some tree => do
    let l ← w.layout.lay? x w.goal w.stop tree
    some ⟨w.goal, w.untried, some l⟩
  | none => some ⟨w.goal, w.untried, some w.layout⟩

/-! ### Moves -/

namespace Search

/-- Ends the work on the top goal and hands the result down. -/
def deliver? (x : Extents) (s : Search) (tree : Option ParseTree) : Option Progress :=
  match s.below with
  | [] => some (.finished tree)
  | w :: below => do
    let top ← w.resume? x tree
    some (.running ⟨top, below, s.active.erase s.top.goal, s.room + 1⟩)

/-- Puts `goal` on top, unless it is on the stack already. -/
def pursue? (x : Extents) (s : Search) (l : Layout) (goal : Goal) : Option Search :=
  if s.active.contains goal then some (s.relay (some l))
  else do
    let top ← Frame.ofGoal? x goal
    some ⟨top, ⟨s.top.goal, s.top.untried, l, goal.stop⟩ :: s.below, s.active.insert goal,
      s.room - 1⟩

/-- Tries the next rule for the top goal. -/
def tryRule? (x : Extents) (s : Search) : Option Progress :=
  match s.top.untried with
  | [] => s.deliver? x none
  | rule :: untried => do
    let goal := s.top.goal
    let layout ←
      if ← x.chart.spans? rule goal.start goal.stop then do
        let l ← Layout.ofRule? x goal rule
        some (some l)
      else some none
    some (.running { s with top := ⟨goal, untried, layout⟩ })

/-- Lays the next symbol of the layout `l` of the top goal up to `stop`, if that is allowed. -/
def tryEnd? (x : Extents) (s : Search) (l : Layout) (symbol : Symbol) (todo : List Symbol)
    (stop : Nat) : Option Search := do
  let (allowed, l) ← l.allows? x s.top.goal todo stop
  if allowed then
    match symbol with
    | .terminal t => do
      let leaf ← x.leaf? t l.pos stop
      let l ← l.lay? x s.top.goal stop leaf
      some (s.relay (some l))
    | .nonterm id => s.pursue? x l ⟨id, l.pos, stop⟩
  else some (s.relay (some l))

/-- One move of the search, with every number checked and no bound on the stack. -/
def step? (x : Extents) (s : Search) : Option Progress :=
  match s.top.layout with
  | none => s.tryRule? x
  | some l =>
    if x.chart.grammar.bodyFrom? l.rule l.dot = some l.todo then
      match l.todo, l.ends.next? with
      | [], _ =>
        if l.pos = s.top.goal.stop then do
          let tree ← l.node? x s.top.goal
          s.deliver? x (some tree)
        else do
          let layout ← l.takeBack?
          some (.running (s.relay layout))
      | _ :: _, none => do
        let layout ← l.takeBack?
        some (.running (s.relay layout))
      | symbol :: todo, some (stop, ends) => do
        let s ← s.tryEnd? x { l with ends := ends } symbol todo stop
        some (.running s)
    else none

/-- The search for a tree of `goal`, before the first move, if there is such a non-terminal. -/
def start? (x : Extents) (goal : Goal) : Option Search := do
  let top ← Frame.ofGoal? x goal
  some { Search.start x goal with top := top }

/-- The outcome of so many moves, one after another; a search that is finished makes no more. -/
def moves? (x : Extents) : Nat → Progress → Option Progress
  | 0, progress => some progress
  | _ + 1, .finished _ => none
  | count + 1, .running s => do
    let progress ← s.step? x
    moves? x count progress

end Search

end Earley
