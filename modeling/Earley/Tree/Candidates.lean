/-
  `Candidates` — a walker over the ends of a symbol, and looking ahead by such walkers.

  A walker holds no ends. It knows where its symbol begins and up to where the next end may lie;
  it asks the chart for the farthest end up to there (`longest?`) and then puts its limit right
  before that end. A limit before the start of the symbol is dropped, and a walker without a limit
  is done.

  `lookAhead?` tells, with a walker for each symbol, whether the rest of a rule can be laid up to
  the end of a span.

  Every number is checked before it is used: there is no answer as soon as a rule, a symbol or a
  position is not there, or the ends of a part of the input or of a range of positions are out of
  order. That a symbol has no end, or a walker none left, is an answer.
-/
import Earley.Tree.Extents

namespace Earley

/-- A rule over a part of the input. -/
structure RuleSpan where
  rule : Nat
  start : Nat
  stop : Nat
  deriving DecidableEq

/-- A walker over the ends of `symbol`, begun at `pos`, from the farthest to the nearest. -/
structure Candidates where
  pos : Nat
  /-- Up to where the next end may lie; none if there is no other end. -/
  upper : Option Nat
  symbol : Symbol
  deriving DecidableEq

/-! ### Matches in a part of the input -/

namespace Terminal

theorem length_le_of_literalAt {input : Array Char} {cs : List Char} {pos : Nat}
    (hpos : pos ≤ input.size) (h : literalAt input cs pos = true) :
    pos + cs.length ≤ input.size := by
  induction cs generalizing pos with
  | nil => exact hpos
  | cons c cs ih =>
    simp only [literalAt, Bool.and_eq_true, beq_iff_eq] at h
    have hlt : pos < input.size := (Array.getElem?_eq_some_iff.1 h.1).1
    have hrest := ih hlt h.2
    rw [List.length_cons]
    omega

/-- A match from the start does not go beyond the end. -/
theorem le_size_of_matchAt {t : Terminal} {input : Array Char} {length : Nat}
    (h : t.matchAt input 0 = some length) : length ≤ input.size := by
  unfold matchAt at h
  cases t with
  | literal text =>
    simp only at h
    split at h
    · rename_i hliteral
      have hle := length_le_of_literalAt (Nat.zero_le _) hliteral
      cases h
      omega
    · cases h
  | range lo hi =>
    simp only at h
    split at h
    · rename_i hget
      have hlt : 0 < input.size := (Array.getElem?_eq_some_iff.1 hget).1
      split at h
      · cases h
        exact hlt
      · cases h
    · cases h

end Terminal

/-! ### The farthest end -/

namespace Extents

/-- The last of some ascending positions from `pos` up to `limit`. -/
def lastWithin (stops : Array Nat) (pos limit : Nat) : Option Nat :=
  (stops.filter fun stop => pos ≤ stop && stop ≤ limit).back?

/-- The farthest position up to `limit` at which `symbol`, begun at `pos`, can end. A terminal is
matched against the input as it is cut off at the limit. -/
def longest? (x : Extents) (symbol : Symbol) (pos limit : Nat) : Option (Option Nat) :=
  match symbol with
  | .terminal t =>
    if pos ≤ limit ∧ limit ≤ x.chart.input.size then
      some ((t.matchAt (x.chart.input.extract pos limit) 0).map fun length => pos + length)
    else none
  | .nonterm id =>
    match x.ends[(id, pos)]? with
    | none => some none
    | some stops => if pos ≤ limit then some (lastWithin stops pos limit) else none

end Extents

/-! ### Asking a walker -/

namespace Candidates

/-- A walker over the ends up to `limit`. -/
def upTo (symbol : Symbol) (pos limit : Nat) : Candidates := ⟨pos, some limit, symbol⟩

/-- The limit right before an end, if there is such a position from `pos` on. -/
def before? (pos stop : Nat) : Option Nat :=
  (if stop = 0 then none else some (stop - 1)).filter fun upper => pos ≤ upper

/-- The next end, if there is one, and the walker behind it. -/
def next? (x : Extents) (w : Candidates) : Option (Option Nat × Candidates) :=
  match w.upper with
  | none => some (none, w)
  | some limit => do
    let stop ← x.longest? w.symbol w.pos limit
    some (stop, { w with upper := stop.bind (before? w.pos) })

/-- The answers of a walker that is asked again and again, by the number of the question. -/
def answer? (x : Extents) : Candidates → Nat → Option (Option Nat)
  | w, 0 => (w.next? x).map Prod.fst
  | w, count + 1 => do
    let (_, w) ← w.next? x
    w.answer? x count

/-! ### A walker comes to its end -/

/-- One more than the limit, and zero without one. -/
def reach (w : Candidates) : Nat :=
  match w.upper with
  | none => 0
  | some limit => limit + 1

/-- The farthest end is not beyond the limit. -/
theorem le_of_longest? {x : Extents} {symbol : Symbol} {pos limit stop : Nat}
    (h : x.longest? symbol pos limit = some (some stop)) : stop ≤ limit := by
  unfold Extents.longest? at h
  cases symbol with
  | terminal t =>
    simp only at h
    split at h
    · rename_i hrange
      obtain ⟨length, hmatch, rfl⟩ := Option.map_eq_some_iff.1 (Option.some.inj h)
      have hle := Terminal.le_size_of_matchAt hmatch
      rw [Array.size_extract_of_le hrange.2] at hle
      omega
    · cases h
  | nonterm id =>
    simp only at h
    split at h
    · cases h
    · split at h
      · have hmem := Array.mem_of_back? (Option.some.inj h)
        have hwithin := (Array.mem_filter.1 hmem).2
        simp only [Bool.and_eq_true, decide_eq_true_eq] at hwithin
        exact hwithin.2
      · cases h

theorem reach_before? (pos stop : Nat) (symbol : Symbol) :
    reach ⟨pos, before? pos stop, symbol⟩ ≤ stop := by
  unfold before? reach
  split
  · exact Nat.zero_le _
  · rename_i limit hlimit
    rw [Option.filter_eq_some_iff] at hlimit
    split at hlimit
    · cases hlimit.1
    · cases hlimit.1
      omega

/-- Behind an end a walker reaches less far. -/
theorem reach_of_next? {x : Extents} {w w' : Candidates} {stop : Nat}
    (h : w.next? x = some (some stop, w')) : w'.reach < w.reach := by
  unfold next? at h
  split at h
  · cases h
  · rename_i limit hupper
    obtain ⟨stop', hlongest, heq⟩ := Option.bind_eq_some_iff.1 h
    cases heq
    have hle := le_of_longest? hlongest
    have hbefore := reach_before? w.pos stop w.symbol
    have hreach : w.reach = limit + 1 := by rw [reach, hupper]
    rw [hreach]
    exact Nat.lt_succ_of_le (Nat.le_trans hbefore hle)

/-! ### Looking ahead -/

/-- Asks for one end after another, passing the memo on, until `p` holds of one. -/
def anyNext? (x : Extents) (p : Nat → Memo → Option (Bool × Memo)) (w : Candidates)
    (memo : Memo) : Option (Bool × Memo) :=
  match h : w.next? x with
  | none => none
  | some (none, _) => some (false, memo)
  | some (some stop, rest) => do
    have : rest.reach < w.reach := reach_of_next? h
    let (found, memo) ← p stop memo
    if found then some (true, memo) else anyNext? x p rest memo
termination_by w.reach

end Candidates

/-- Past a symbol, less of a rule is left. -/
theorem Grammar.left_lt_left {g : Grammar} {index dot : Nat} {rule : Rule} {symbol : Symbol}
    (hrule : g.rules[index]? = some rule) (hsymbol : rule.body[dot]? = some symbol) :
    (g.rule index).body.size - (dot + 1) < (g.rule index).body.size - dot := by
  have heq : g.rule index = rule := by
    rw [Grammar.rule, Array.getD_eq_getD_getElem?, hrule, Option.getD_some]
  have hlt : dot < rule.body.size := (Array.getElem?_eq_some_iff.1 hsymbol).1
  rw [heq]
  omega

/-- Tells whether the symbols of a rule from `dot` on can be laid from `pos` to the end of `span`;
gives the memo with what was found. -/
def Extents.lookAhead? (x : Extents) (span : RuleSpan) (dot pos : Nat) (memo : Memo) :
    Option (Bool × Memo) :=
  match hrule : x.chart.grammar.rules[span.rule]? with
  | none => none
  | some rule =>
    if dot = rule.body.size then some (pos == span.stop, memo)
    else
      match memo[(dot, pos)]? with
      | some known => some (known, memo)
      | none =>
        match hsymbol : rule.body[dot]? with
        | none => none
        | some symbol => do
          have := Grammar.left_lt_left hrule hsymbol
          let (found, memo) ← (Candidates.upTo symbol pos span.stop).anyNext? x
            (fun stop memo => do
              let set ← x.chart.setAt? stop
              if set.contains ⟨span.rule, dot + 1, span.start⟩ then
                x.lookAhead? span (dot + 1) stop memo
              else some (false, memo))
            memo
          some (found, memo.insert (dot, pos) found)
termination_by (x.chart.grammar.rule span.rule).body.size - dot

end Earley
