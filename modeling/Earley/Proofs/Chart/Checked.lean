/-
  `Checked` — recognition without fuel, with every access checked.

  A set is worked off while it grows: the loop over its items goes on until the cursor is at their
  end, wherever that is by then. `Queue.turn?` is one turn of that loop, or the step to the next
  set; how many turns there may be is not said. Besides, each turn checks every number before it
  is used: it gives none as soon as a set, a rule, a non-terminal or the place of an item is not
  there, or a part of the input begins behind its end.

  A queue keeps a record of the items that have been expanded. Nothing is decided by it; it tells
  how often each item had its turn.
-/
import Earley.Chart.Basic

namespace Earley

/-- The items that wait for a non-terminal, if they are where the table says. -/
def StateSet.waitingOn? (s : StateSet) (nonterm : Nat) : Option (List Item) :=
  (s.waiting.getD nonterm #[]).toList.mapM (s.items[·]?)

namespace Recognition

/-! ### Expanding an item -/

/-- Adds an item to the set at `pos`, if there are this set and the rule of the item. -/
def insert? (g : Grammar) (pos : Nat) (r : Recognition) (item : Item) : Option Recognition :=
  if pos < r.sets.size ∧ item.rule < g.rules.size then some (r.insert g pos item) else none

/-- Adds items to the set at `pos`, one after another. -/
def insertAll? (g : Grammar) (pos : Nat) (r : Recognition) (items : List Item) :
    Option Recognition :=
  items.foldlM (insert? g pos) r

/-- Predicts a non-terminal, if it is in the tables. -/
def predict? (g : Grammar) (pos : Nat) (r : Recognition) (item : Item) (nonterm : Nat) :
    Option Recognition := do
  let rules ← g.alternatives[nonterm]?
  let r ← r.insertAll? g pos (rules.map fun rule => .predict rule pos)
  let nullable ← g.nullable[nonterm]?
  if nullable then r.insert? g pos item.advance else some r

/-- Moves the dot over a terminal that matches at `pos`, if that is in the input. -/
def scan? (g : Grammar) (input : Array Char) (pos : Nat) (r : Recognition) (item : Item)
    (t : Terminal) : Option Recognition :=
  if pos ≤ input.size then
    match t.matchAt input pos with
    | none => some r
    | some length => do
      let r ← r.insert? g (pos + length) item.advance
      some { r with furthest := max r.furthest (pos + length) }
  else none

/-- Moves the dots of the items that wait for the head of a complete item, if there is a set where
it began. -/
def complete? (g : Grammar) (pos : Nat) (r : Recognition) (item : Item) : Option Recognition := do
  let rule ← g.rules[item.rule]?
  let set ← r.sets[item.start]?
  let waiting ← set.waitingOn? rule.head
  r.insertAll? g pos (waiting.map Item.advance)

/-- Brings in what follows from `item` in the set at `pos`. -/
def expand? (g : Grammar) (input : Array Char) (pos : Nat) (r : Recognition) (item : Item) :
    Option Recognition := do
  let rule ← g.rules[item.rule]?
  match rule.body[item.dot]? with
  | some (.nonterm id) => r.predict? g pos item id
  | some (.terminal t) => r.scan? g input pos item t
  | none => r.complete? g pos item

/-- Empty sets for an input of `length` characters, but for the rules of the start symbol. -/
def start? (g : Grammar) (length : Nat) : Option Recognition := do
  let rules ← g.alternatives[g.start]?
  insertAll? g 0 ⟨Array.replicate (length + 1) .empty, 0⟩ (rules.map fun rule => .predict rule 0)

end Recognition

/-! ### The loop over the sets -/

/-- A recognition under way: the position that is worked on, the number of items of its set that
have had their turn, and all items that have had it, each with its position. -/
structure Queue where
  recognition : Recognition
  pos : Nat
  cursor : Nat
  expanded : List (Nat × Item)

namespace Queue

/-- The item whose turn it is, if there are more in the set that is worked on. -/
def item? (q : Queue) : Option Item := (q.recognition.setAt q.pos).items[q.cursor]?

/-- One turn: the next item of the set is expanded, or if there is none, the next set is worked on.
Behind the last set there are no turns. -/
def turn? (g : Grammar) (input : Array Char) (q : Queue) : Option Queue := do
  let set ← q.recognition.sets[q.pos]?
  match set.items[q.cursor]? with
  | some item => do
    let r ← q.recognition.expand? g input q.pos item
    some ⟨r, q.pos, q.cursor + 1, q.expanded ++ [(q.pos, item)]⟩
  | none => some ⟨q.recognition, q.pos + 1, 0, q.expanded⟩

/-- The queue before the first turn. -/
def start? (g : Grammar) (length : Nat) : Option Queue := do
  let r ← Recognition.start? g length
  some ⟨r, 0, 0, []⟩

/-- The queue after so many turns. -/
def turns? (g : Grammar) (input : Array Char) : Nat → Queue → Option Queue
  | 0, q => some q
  | count + 1, q => do
    let q ← q.turn? g input
    turns? g input count q

end Queue

end Earley
