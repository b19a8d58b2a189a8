/-
  `Extents` — where the symbols of a chart end.

  A finished chart says which non-terminals were matched from which position to which. `Extents`
  gives, for a non-terminal and a position, all ends of its matches from there; `candidates` are
  those of them that are not beyond a limit, the longest match first, and the same for terminals.

  With that it can be told whether the rest of a rule can be laid over the rest of a span
  (`fits`): one end after another is tried for the first symbol, where the chart has to hold the
  item with the dot behind that symbol, until the symbols after it fit from there. What is found
  for a dot and a position is noted in a memo, which is good for one rule over one span.
-/
import Earley.Chart.Basic
import Earley.Tree.Ends

namespace Earley

/-- A chart with the ends of all matches in it. -/
structure Extents where
  chart : Chart
  /-- For a non-terminal and a position, the ends of its matches from there, ascending. -/
  ends : Std.HashMap (Nat × Nat) (Array Nat)

/-- A non-terminal over a span: what a node of a tree stands for. -/
structure Goal where
  nonterm : Nat
  start : Nat
  stop : Nat
  deriving DecidableEq, Hashable

/-- What is known to fit: for a dot and a position, whether the symbols from the dot on can be
laid from the position to the end of the span. -/
abbrev Memo := Std.HashMap (Nat × Nat) Bool

namespace Extents

/-- One more end behind others, which may not have been begun. -/
def extend (stop : Nat) (stops : Option (Array Nat)) : Option (Array Nat) :=
  some ((stops.getD #[]).push stop)

/-- Adds the ends at position `stop`, where the state set is `set`. -/
def addSet (ends : Std.HashMap (Nat × Nat) (Array Nat)) (set : StateSet) (stop : Nat) :
    Std.HashMap (Nat × Nat) (Array Nat) :=
  set.completions.foldl (fun ends match_ => ends.alter match_ (extend stop)) ends

/-- The extents of a chart. Positions are taken in ascending order, and so the ends of every match
come in ascending order, too. -/
def ofChart (c : Chart) : Extents :=
  ⟨c, (List.range c.sets.size).foldl (fun ends stop => addSet ends (c.setAt stop) stop) ∅⟩

/-- The positions up to `limit` at which `symbol`, begun at `pos`, can end. -/
def candidates (x : Extents) (symbol : Symbol) (pos limit : Nat) : Ends :=
  match symbol with
  | .nonterm id => .upTo (x.ends.getD (id, pos) #[]) limit
  | .terminal t =>
    match t.matchAt x.chart.input pos with
    | some length => if pos + length ≤ limit then .single (pos + length) else .empty
    | none => .empty

/-- Tells whether the chart holds the rule, begun at the start of `goal`, with its dot at `dot`
when `pos` is reached. -/
def reaches (x : Extents) (goal : Goal) (rule dot pos : Nat) : Bool :=
  (x.chart.setAt pos).contains ⟨rule, dot, goal.start⟩

/-- Tries one end after another, passing the memo on, until `p` holds of one. -/
def anyEnd (p : Nat → Memo → Bool × Memo) (ends : Ends) (memo : Memo) : Bool × Memo :=
  match h : ends.next? with
  | none => (false, memo)
  | some (stop, rest) =>
    match p stop memo with
    | (true, memo) => (true, memo)
    | (false, memo) =>
      have : rest.count < ends.count := by rw [Ends.count_of_next? h]; exact Nat.lt_succ_self _
      anyEnd p rest memo
termination_by ends.count

/-- Tells whether `symbols`, those of the rule from `dot` on, can be laid from `pos` to the end of
`goal`; gives the memo with what was found. -/
def fits (x : Extents) (goal : Goal) (rule : Nat) :
    List Symbol → (dot pos : Nat) → Memo → Bool × Memo
  | [], _, pos, memo => (pos == goal.stop, memo)
  | symbol :: symbols, dot, pos, memo =>
    match memo[(dot, pos)]? with
    | some known => (known, memo)
    | none =>
      let (found, memo) := anyEnd (fun stop memo =>
          if x.reaches goal rule (dot + 1) stop then
            fits x goal rule symbols (dot + 1) stop memo
          else (false, memo))
        (x.candidates symbol pos goal.stop) memo
      (found, memo.insert (dot, pos) found)

end Extents

end Earley
