/-
  `StateSet` — the items at one position of the input.

  A state set lists its items in the order in which they were first inserted. Three tables, kept
  along with the list, answer the questions of recognition without a search: whether an item is
  there, which items have a given non-terminal behind the dot, and which non-terminals were
  matched from which position on.
-/
import Earley.Chart.Item
import Std.Data.HashSet

namespace Earley

/-- The items at one position, with their tables. -/
structure StateSet where
  /-- The items, in the order of their first insertion. -/
  items : Array Item
  /-- The same items, to tell whether one is there. -/
  seen : Std.HashSet Item
  /-- For each non-terminal, the places in `items` of those that have it behind the dot. -/
  waiting : Std.HashMap Nat (Array Nat)
  /-- The head and the start of every complete item. -/
  completed : Std.HashSet (Nat × Nat)

namespace StateSet

/-- The set without items. -/
def empty : StateSet := ⟨#[], ∅, ∅, ∅⟩

instance : Inhabited StateSet := ⟨empty⟩

/-- The number of items. -/
def size (s : StateSet) : Nat := s.items.size

/-- Tells whether there are no items. -/
def isEmpty (s : StateSet) : Bool := s.items.isEmpty

/-- Tells whether an item is in the set. -/
def contains (s : StateSet) (item : Item) : Bool := s.seen.contains item

/-- One more place at the end of a list of places, which may not have been begun. -/
def enlist (place : Nat) (places : Option (Array Nat)) : Option (Array Nat) :=
  some ((places.getD #[]).push place)

/-- Adds an item that is not in the set. -/
def push (g : Grammar) (s : StateSet) (item : Item) : StateSet :=
  let place := s.items.size
  let s := { s with items := s.items.push item, seen := s.seen.insert item }
  match item.nextSymbol? g with
  | some (.nonterm id) => { s with waiting := s.waiting.alter id (enlist place) }
  | some (.terminal _) => s
  | none => { s with completed := s.completed.insert (item.head g, item.start) }

/-- Adds an item unless it is in the set; tells whether it was added. -/
def tryInsert (g : Grammar) (s : StateSet) (item : Item) : Bool × StateSet :=
  if s.contains item then (false, s) else (true, s.push g item)

/-- Adds an item unless it is in the set. -/
def insert (g : Grammar) (s : StateSet) (item : Item) : StateSet := (s.tryInsert g item).2

/-- The items that have `nonterm` behind the dot, in the order of their insertion. -/
def waitingOn (s : StateSet) (nonterm : Nat) : List Item :=
  (s.waiting.getD nonterm #[]).toList.filterMap (s.items[·]?)

/-- Tells whether some rule of `head` that began at `start` is complete. -/
def hasCompleted (s : StateSet) (head start : Nat) : Bool :=
  s.completed.contains (head, start)

/-- The head and start of each complete item, every pair once and in no particular order. -/
def completions (s : StateSet) : List (Nat × Nat) := s.completed.toList

end StateSet

end Earley
