/-
  `Chart` — recognition of an input, position by position.

  A chart has a state set for each position from the start of the input to its end. The set at
  `k` collects the items of the rules that can be under way, or done, once `k` characters have
  been read. It begins with the rules of the start symbol at position zero. Each item brings in
  others, by what stands behind its dot:

  * a non-terminal: its rules are predicted at this position, and if it derives the empty text
    the dot moves over it at once (`predict`);
  * a terminal: if it matches here, the item with the dot moved joins the set behind the match
    (`scan`), which is a later one, since no terminal matches the empty text;
  * nothing: the rule is matched, and the dots of the items that wait for its head where it began
    move on (`complete`).

  The sets are worked off in order (`drain`). Within a set the list of items is its own queue, and
  an item that is there already is not added again, so there is a bound on the items of a set
  (`Grammar.slots`) and the queue runs dry.

  The input is in the language if a rule of the start symbol spans all of it.
-/
import Earley.Chart.ParseError
import Earley.Chart.StateSet
import Earley.Text.Sorted

namespace Earley

/-- The number of places that a dot can take in the rules of a grammar. -/
def Grammar.slots (g : Grammar) : Nat :=
  g.rules.foldl (fun n rule => n + (rule.body.size + 1)) 0

/-- A recognition under way: the state sets, and the furthest position that a match of a terminal
has reached. -/
structure Recognition where
  sets : Array StateSet
  furthest : Nat

namespace Recognition

/-- The state set at `pos`. -/
def setAt (r : Recognition) (pos : Nat) : StateSet := r.sets.getD pos .empty

/-- Adds an item to the set at `pos`. -/
def insert (g : Grammar) (pos : Nat) (r : Recognition) (item : Item) : Recognition :=
  { r with sets := r.sets.modify pos fun s => s.insert g item }

/-- Adds items to the set at `pos`, one after another. -/
def insertAll (g : Grammar) (pos : Nat) (r : Recognition) (items : List Item) : Recognition :=
  items.foldl (insert g pos) r

/-- The rules of a non-terminal, with nothing matched at `pos`. -/
def predictions (g : Grammar) (nonterm pos : Nat) : List Item :=
  (g.alternativesOf nonterm).map fun rule => .predict rule pos

/-- Predicts the non-terminal behind the dot of `item`, and steps over it if it derives the empty
text: an item that is added to this set later would miss that match. -/
def predict (g : Grammar) (pos : Nat) (r : Recognition) (item : Item) (nonterm : Nat) :
    Recognition :=
  let r := r.insertAll g pos (predictions g nonterm pos)
  if g.isNullable nonterm then r.insert g pos item.advance else r

/-- Moves the dot over the terminal behind it, if that matches at `pos`. -/
def scan (g : Grammar) (input : Array Char) (pos : Nat) (r : Recognition) (item : Item)
    (t : Terminal) : Recognition :=
  match t.matchAt input pos with
  | none => r
  | some length =>
    let r := r.insert g (pos + length) item.advance
    { r with furthest := max r.furthest (pos + length) }

/-- Moves the dots of the items that wait for the head of a complete `item` where it began. -/
def complete (g : Grammar) (pos : Nat) (r : Recognition) (item : Item) : Recognition :=
  let waiting := (r.setAt item.start).waitingOn (item.head g)
  r.insertAll g pos (waiting.map Item.advance)

/-- Brings in what follows from `item` in the set at `pos`. -/
def expand (g : Grammar) (input : Array Char) (pos : Nat) (r : Recognition) (item : Item) :
    Recognition :=
  match item.nextSymbol? g with
  | some (.nonterm id) => r.predict g pos item id
  | some (.terminal t) => r.scan g input pos item t
  | none => r.complete g pos item

/-- Expands at most `fuel` items of the set at `pos`, from the one numbered `cursor` on. -/
def drain (g : Grammar) (input : Array Char) (pos : Nat) :
    (fuel cursor : Nat) → Recognition → Recognition
  | 0, _, r => r
  | fuel + 1, cursor, r =>
    match (r.setAt pos).items[cursor]? with
    | none => r
    | some item => drain g input pos fuel (cursor + 1) (r.expand g input pos item)

/-- Empty sets for an input of `length` characters, but for the rules of the start symbol. -/
def start (g : Grammar) (length : Nat) : Recognition :=
  insertAll g 0 ⟨Array.replicate (length + 1) .empty, 0⟩ (predictions g g.start 0)

/-- Works off the set at `pos`; it never has more items than are allowed for here. -/
def drainAt (g : Grammar) (input : Array Char) (slots : Nat) (r : Recognition) (pos : Nat) :
    Recognition :=
  r.drain g input pos ((pos + 1) * slots) 0

/-- The recognition of a whole input. -/
def run (g : Grammar) (input : Array Char) : Recognition :=
  (List.range (input.size + 1)).foldl (drainAt g input g.slots) (start g input.size)

end Recognition

/-- The state sets for an input, all worked off. -/
structure Chart where
  grammar : Grammar
  input : Array Char
  /-- The state set of each position. -/
  sets : Array StateSet
  /-- The furthest position that a match of a terminal has reached. -/
  furthest : Nat

namespace Chart

/-- The chart of an input. -/
def ofInput (g : Grammar) (input : Array Char) : Chart :=
  let r := Recognition.run g input
  ⟨g, input, r.sets, r.furthest⟩

/-- The state set at `pos`, for a `pos` up to the end of the input. -/
def setAt? (c : Chart) (pos : Nat) : Option StateSet := c.sets[pos]?

/-- The state set at `pos`; past the end of the input there are no items. -/
def setAt (c : Chart) (pos : Nat) : StateSet := c.sets.getD pos .empty

/-- The number of items in all sets together. -/
def itemCount (c : Chart) : Nat := c.sets.foldl (fun n s => n + s.size) 0

/-- Tells whether a rule, begun at `start`, is complete at `stop`. -/
def spans (c : Chart) (rule start stop : Nat) : Bool :=
  (c.setAt stop).contains ⟨rule, (c.grammar.rule rule).body.size, start⟩

/-- The first rule of the start symbol that spans the whole input. -/
def acceptingRule? (c : Chart) : Option Nat :=
  (c.grammar.alternativesOf c.grammar.start).find? fun rule => c.spans rule 0 c.input.size

/-- The terminals that would have fitted at the furthest position. -/
def expected (c : Chart) : List String :=
  sortDistinct ((c.setAt c.furthest).items.toList.filterMap fun item =>
    match item.nextSymbol? c.grammar with
    | some (.terminal t) => some t.display
    | _ => none)

/-- Where the input stops to be matched, and why. -/
def rejection (c : Chart) : ParseError :=
  .noDerivation c.furthest (.locate c.input.toList c.furthest) c.input[c.furthest]? c.expected

end Chart

/-- The chart of `input`, if that is in the language of `g`. -/
def Grammar.parse (g : Grammar) (input : List Char) : Except ParseError Chart :=
  let chart := Chart.ofInput g input.toArray
  match chart.acceptingRule? with
  | some _ => .ok chart
  | none => .error chart.rejection

end Earley
