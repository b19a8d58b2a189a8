/-
  `Candidates` — a walker gives the ends that are left, one after another.

  `Candidates.left` is the view of a walker: the ends up to its limit, from the farthest to the
  nearest. A walker that is in range always has an answer, which is the first of them, and the
  walker behind that has the others left (`next?_eq`): below an end there are the ends up to the
  position right before it, as no end lies before the start of the symbol.

  With that, looking ahead by walkers is looking ahead by lists of ends (`lookAhead?_eq`).
-/
import Earley.Proofs.Tree.InRange
import Earley.Tree.Candidates
import Mathlib.Data.List.Sort

namespace Earley

/-! ### The farthest end -/

/-- A match in a part of the input is a match in the input that does not go beyond that part. -/
theorem Terminal.matchAt_extract {t : Terminal} {input : Array Char} {pos limit : Nat}
    (hpos : pos ≤ limit) (hlimit : limit ≤ input.size) :
    t.matchAt (input.extract pos limit) 0 =
      (t.matchAt input pos).filter fun length => pos + length ≤ limit := by
  refine Option.ext fun length => ?_
  have hsize : (input.extract pos limit).size = limit - pos := Array.size_extract_of_le hlimit
  have hslice (hle : pos + length ≤ limit) :
      slice (input.extract pos limit) 0 (0 + length) = slice input pos (pos + length) := by
    rw [slice, slice, Array.extract_extract, Nat.add_zero, Nat.zero_add, Nat.min_eq_left hle]
  rw [matchAt_eq_some_iff (Nat.zero_le _), Option.filter_eq_some_iff,
    matchAt_eq_some_iff (Nat.le_trans hpos hlimit), hsize, decide_eq_true_iff]
  constructor
  · rintro ⟨hle, hmatches⟩
    have hle' : pos + length ≤ limit := by omega
    rw [hslice hle'] at hmatches
    exact ⟨⟨Nat.le_trans hle' hlimit, hmatches⟩, hle'⟩
  · rintro ⟨⟨-, hmatches⟩, hle⟩
    rw [hslice hle]
    exact ⟨by omega, hmatches⟩

/-- The limit right before an end is from the start of the symbol on. -/
theorem Candidates.before?_eq_some_iff {pos stop upper : Nat} :
    before? pos stop = some upper ↔ upper + 1 = stop ∧ pos ≤ upper := by
  rw [before?, Option.filter_eq_some_iff, decide_eq_true_iff]
  refine and_congr_left fun _ => ?_
  split
  · simp
    omega
  · rw [Option.some.injEq]
    omega

namespace Extents

variable {g : Grammar} {input : Array Char} {symbol : Symbol} {pos limit stop : Nat}

theorem lastWithin_eq {stops : Array Nat} (h : stops.toList.Pairwise (· < ·))
    (hpos : ∀ stop ∈ stops, pos ≤ stop) :
    lastWithin stops pos limit = (Ends.upTo stops limit).toList.head? := by
  have heq : (Ends.upTo stops limit).toList =
      (stops.toList.filter fun stop => pos ≤ stop && stop ≤ limit).reverse := by
    refine (Ends.pairwise_toList_upTo h).eq_of_mem_iff
      (List.pairwise_reverse.2 (h.filter _)) fun stop => ?_
    rw [Ends.mem_toList_upTo_iff h, List.mem_reverse, List.mem_filter, Array.mem_toList_iff]
    simp only [Bool.and_eq_true, decide_eq_true_eq]
    exact and_congr_right fun hmem => (and_iff_right (hpos stop hmem)).symm
  rw [heq, List.head?_reverse, lastWithin, ← Array.getLast?_toList, Array.toList_filter]

/-- The farthest end is the first candidate. -/
theorem longest?_eq (hg : g.WellFormed) (hpos : pos ≤ limit) (hlimit : limit ≤ input.size) :
    (ofInput g input).longest? symbol pos limit =
      some ((ofInput g input).candidates symbol pos limit).toList.head? := by
  cases symbol with
  | terminal t =>
    have hcut : t.matchAt ((ofInput g input).chart.input.extract pos limit) 0 =
        (t.matchAt (ofInput g input).chart.input pos).filter fun length => pos + length ≤ limit :=
      Terminal.matchAt_extract hpos hlimit
    rw [longest?, if_pos ⟨hpos, hlimit⟩, candidates, hcut]
    cases t.matchAt (ofInput g input).chart.input pos with
    | none => rfl
    | some length =>
      by_cases hle : pos + length ≤ limit
      · simp [hle, Ends.toList, Ends.single]
      · simp [hle, Ends.toList, Ends.empty, Nat.lt_of_not_le hle]
  | nonterm id =>
    have hstops : ∀ stop ∈ (ofInput g input).ends.getD (id, pos) #[], pos ≤ stop := by
      intro stop hmem
      rw [← Array.mem_toList_iff, toList_getD_ends, List.mem_filter] at hmem
      have hcovers : (ofInput g input).Covers (.nonterm id) pos stop := hmem.2
      exact le_of_covers hg hcovers
    have hascending := pairwise_ends (Chart.ofInput g input) id pos
    rw [longest?, candidates, ← lastWithin_eq hascending hstops, Std.HashMap.getD_eq_getD_getElem?]
    cases (ofInput g input).ends[(id, pos)]? with
    | none => simp [lastWithin]
    | some stops => simp [hpos]

/-- Below an end, a walker has the ends left that are up to the position right before it. -/
theorem toList_candidates_of_before? (hg : g.WellFormed) {stops : List Nat}
    (h : ((ofInput g input).candidates symbol pos limit).toList = stop :: stops) :
    stops = match Candidates.before? pos stop with
      | none => []
      | some upper => ((ofInput g input).candidates symbol pos upper).toList := by
  have hsorted : ((ofInput g input).candidates symbol pos limit).toList.Pairwise (· > ·) :=
    pairwise_toList_candidates
  have hmem {stop' : Nat} : stop' ∈ stop :: stops ↔
      stop' ≤ limit ∧ (ofInput g input).Covers symbol pos stop' := by
    rw [← h, mem_toList_candidates_iff]
  rw [h] at hsorted
  have hbehind {stop' : Nat} : stop' ∈ stops ↔
      stop' < stop ∧ (ofInput g input).Covers symbol pos stop' := by
    constructor
    · intro hstop'
      exact ⟨List.rel_of_pairwise_cons hsorted hstop', (hmem.1 (List.mem_cons_of_mem _ hstop')).2⟩
    · rintro ⟨hlt, hcovers⟩
      have hle := (hmem.1 List.mem_cons_self).1
      have hstop' := hmem.2 ⟨by omega, hcovers⟩
      exact (List.mem_cons.1 hstop').resolve_left (by omega)
  cases hbefore : Candidates.before? pos stop with
  | none =>
    -- No end lies before the start of the symbol.
    refine List.eq_nil_iff_forall_not_mem.2 fun stop' hstop' => ?_
    obtain ⟨hlt, hcovers⟩ := hbehind.1 hstop'
    have hle := le_of_covers hg hcovers
    have hsome : Candidates.before? pos stop = some (stop - 1) :=
      Candidates.before?_eq_some_iff.2 ⟨by omega, by omega⟩
    rw [hbefore] at hsome
    cases hsome
  | some upper =>
    have hupper : upper + 1 = stop := (Candidates.before?_eq_some_iff.1 hbefore).1
    refine hsorted.of_cons.eq_of_mem_iff pairwise_toList_candidates fun stop' => ?_
    rw [hbehind, mem_toList_candidates_iff, ← hupper, Nat.lt_succ_iff]

end Extents

/-! ### The view of a walker -/

namespace Candidates

variable {g : Grammar} {input : Array Char} {w : Candidates} {symbol : Symbol} {pos limit : Nat}

/-- The ends that a walker has left, the next one first. -/
def left (x : Extents) (w : Candidates) : List Nat :=
  match w.upper with
  | none => []
  | some limit => (x.candidates w.symbol w.pos limit).toList

/-- Tells that the limit of a walker is neither before its symbol nor beyond the input. -/
def InRange (x : Extents) (w : Candidates) : Prop :=
  ∀ limit, w.upper = some limit → w.pos ≤ limit ∧ limit ≤ x.chart.input.size

theorem inRange_upTo (hpos : pos ≤ limit) (hlimit : limit ≤ input.size) :
    (upTo symbol pos limit).InRange (.ofInput g input) := by
  rintro _ ⟨⟩
  exact ⟨hpos, hlimit⟩

/-- **A walker in range gives the first of the ends that are left**, and has the others left. -/
theorem next?_eq (hg : g.WellFormed) (h : w.InRange (.ofInput g input)) :
    ∃ upper, w.next? (.ofInput g input) =
        some ((w.left (.ofInput g input)).head?, { w with upper := upper }) ∧
      InRange (.ofInput g input) { w with upper := upper } ∧
        left (.ofInput g input) { w with upper := upper } =
          (w.left (.ofInput g input)).tail := by
  obtain ⟨pos, upper, symbol⟩ := w
  cases upper with
  | none => exact ⟨none, rfl, h, rfl⟩
  | some limit =>
    obtain ⟨hpos, hlimit⟩ : pos ≤ limit ∧ limit ≤ input.size := h limit rfl
    have hlongest : (Extents.ofInput g input).longest? symbol pos limit =
        some ((Extents.ofInput g input).candidates symbol pos limit).toList.head? :=
      Extents.longest?_eq hg hpos hlimit
    simp only [next?, hlongest, left, Option.bind_eq_bind, Option.bind_some]
    refine ⟨_, rfl, ?_⟩
    cases hstops : ((Extents.ofInput g input).candidates symbol pos limit).toList with
    | nil =>
      refine ⟨?_, rfl⟩
      rintro _ ⟨⟩
    | cons stop stops =>
      have hrest := Extents.toList_candidates_of_before? hg hstops
      have hle : stop ≤ limit :=
        (Extents.mem_toList_candidates_iff.1 (hstops ▸ List.mem_cons_self)).1
      refine ⟨fun upper hupper => ?_, ?_⟩
      · obtain ⟨hbefore, hpos'⟩ := before?_eq_some_iff.1 hupper
        have hupper' : upper ≤ input.size := by omega
        exact ⟨hpos', hupper'⟩
      · rw [List.tail_cons, hrest]
        rfl

/-- A walker that is asked again and again gives the ends that are left, and then none. -/
theorem answer?_eq (hg : g.WellFormed) (h : w.InRange (.ofInput g input)) (count : Nat) :
    w.answer? (.ofInput g input) count = some (w.left (.ofInput g input))[count]? := by
  induction count generalizing w with
  | zero =>
    obtain ⟨upper, hnext, -, -⟩ := next?_eq hg h
    rw [answer?, hnext, Option.map_some, List.head?_eq_getElem?]
  | succ count ih =>
    obtain ⟨upper, hnext, hrange, hleft⟩ := next?_eq hg h
    simp only [answer?, hnext, Option.bind_eq_bind, Option.bind_some]
    rw [ih hrange, hleft, List.getElem?_tail]

/-! ### Looking ahead by walkers -/

section AnyNext

variable {x : Extents} {p? : Nat → Memo → Option (Bool × Memo)} {p : Nat → Memo → Bool × Memo}
  {w' : Candidates} {memo : Memo} {stop : Nat}

theorem anyNext?_of_next?_eq_none (h : w.next? x = some (none, w')) :
    w.anyNext? x p? memo = some (false, memo) := by
  rw [anyNext?]
  split
  · rename_i hnone
    rw [h] at hnone
    cases hnone
  · rfl
  · rename_i hsome
    rw [h] at hsome
    cases hsome

theorem anyNext?_of_next?_eq_some (h : w.next? x = some (some stop, w')) :
    w.anyNext? x p? memo = (p? stop memo).bind fun outcome =>
      if outcome.1 then some (true, outcome.2) else w'.anyNext? x p? outcome.2 := by
  rw [anyNext?]
  split
  · rename_i hnone
    rw [h] at hnone
    cases hnone
  · rename_i hnone
    rw [h] at hnone
    cases hnone
  · rename_i hsome
    rw [h] at hsome
    cases hsome
    rfl

/-- Trying the ends of a walker is trying the ends that are left. -/
theorem anyNext?_eq (hg : g.WellFormed) (h : w.InRange (.ofInput g input)) {ends : Ends}
    (hleft : w.left (.ofInput g input) = ends.toList)
    (hp : ∀ stop ∈ ends.toList, ∀ memo, p? stop memo = some (p stop memo)) :
    w.anyNext? (.ofInput g input) p? memo = some (Extents.anyEnd p ends memo) := by
  obtain ⟨upper, hnext, hrange, hrest⟩ := next?_eq hg h
  fun_induction Extents.anyEnd p ends memo generalizing w upper with
  | case1 ends memo hends =>
    rw [hleft, Ends.toList_of_next?_eq_none hends] at hnext
    exact anyNext?_of_next?_eq_none hnext
  | case2 ends memo stop rest hends memo' htrial =>
    rw [Ends.toList_of_next?_eq_some hends] at hleft hp
    rw [hleft] at hnext
    rw [anyNext?_of_next?_eq_some hnext, hp stop List.mem_cons_self memo, htrial]
    rfl
  | case3 ends memo stop rest hends memo' htrial _ ih =>
    rw [Ends.toList_of_next?_eq_some hends] at hleft hp
    rw [hleft] at hnext hrest
    rw [anyNext?_of_next?_eq_some hnext, hp stop List.mem_cons_self memo, htrial]
    obtain ⟨upper', hnext', hrange', hrest'⟩ := next?_eq hg hrange
    exact ih hrange hrest (fun stop' hmem => hp stop' (List.mem_cons_of_mem _ hmem))
      upper' hnext' hrange' hrest'

end AnyNext

end Candidates

namespace Extents

section LookAhead

variable {x : Extents} {span : RuleSpan} {r : Rule} {dot pos : Nat} {memo : Memo}

theorem lookAhead?_of_eq_size (hrule : x.chart.grammar.rules[span.rule]? = some r)
    (hdot : dot = r.body.size) :
    x.lookAhead? span dot pos memo = some (pos == span.stop, memo) := by
  rw [lookAhead?]
  split
  · rename_i hnone
    rw [hrule] at hnone
    cases hnone
  · rename_i r' hr'
    obtain rfl : r = r' := Option.some.inj (hrule.symm.trans hr')
    rw [if_pos hdot]

theorem lookAhead?_of_getElem?_eq_some {symbol : Symbol}
    (hrule : x.chart.grammar.rules[span.rule]? = some r) (hsymbol : r.body[dot]? = some symbol) :
    x.lookAhead? span dot pos memo =
      match memo[(dot, pos)]? with
      | some known => some (known, memo)
      | none =>
        ((Candidates.upTo symbol pos span.stop).anyNext? x
          (fun stop memo => (x.chart.setAt? stop).bind fun set =>
            if set.contains ⟨span.rule, dot + 1, span.start⟩ then
              x.lookAhead? span (dot + 1) stop memo
            else some (false, memo))
          memo).bind fun outcome =>
            some (outcome.1, outcome.2.insert (dot, pos) outcome.1) := by
  have hlt : dot < r.body.size := (Array.getElem?_eq_some_iff.1 hsymbol).1
  rw [lookAhead?]
  split
  · rename_i hnone
    rw [hrule] at hnone
    cases hnone
  · rename_i r' hr'
    obtain rfl : r = r' := Option.some.inj (hrule.symm.trans hr')
    rw [if_neg (Nat.ne_of_lt hlt)]
    cases memo[(dot, pos)]? with
    | some known => rfl
    | none =>
      simp only
      split
      · rename_i hnone
        rw [hsymbol] at hnone
        cases hnone
      · rename_i symbol' hsymbol'
        obtain rfl : symbol = symbol' := Option.some.inj (hsymbol.symm.trans hsymbol')
        rfl

end LookAhead

variable {g : Grammar} {input : Array Char} {goal : Goal} {rule dot pos : Nat}
  {symbols : List Symbol}

/-- **Looking ahead by walkers is looking ahead by lists of ends**, for a rule within a goal. The
induction is on the symbols that are left of the rule. -/
theorem lookAhead?_eq (hg : g.WellFormed) (hrule : rule < g.rules.size)
    (hstop : goal.stop ≤ input.size) (hdot : dot ≤ (g.rule rule).body.size)
    (hpos : pos ≤ goal.stop) (hsymbols : (g.rule rule).body.toList.drop dot = symbols)
    (memo : Memo) :
    (ofInput g input).lookAhead? ⟨rule, goal.start, goal.stop⟩ dot pos memo =
      some ((ofInput g input).fits goal rule symbols dot pos memo) := by
  have hget : (ofInput g input).chart.grammar.rules[rule]? = some (g.rule rule) :=
    Grammar.getElem?_rules hrule
  have hlength := congrArg List.length hsymbols
  rw [List.length_drop, Array.length_toList] at hlength
  induction symbols generalizing dot pos memo with
  | nil =>
    have hend : dot = (g.rule rule).body.size := by
      rw [List.length_nil] at hlength
      omega
    rw [lookAhead?_of_eq_size hget hend, fits]
  | cons symbol symbols ih =>
    rw [List.length_cons] at hlength
    have hlt : dot < (g.rule rule).body.size := by omega
    have hsymbol : (g.rule rule).body[dot]? = some symbol := by
      rw [← Array.getElem?_toList, ← List.head?_drop, hsymbols, List.head?_cons]
    have hdrop : (g.rule rule).body.toList.drop (dot + 1) = symbols := by
      rw [← List.tail_drop, hsymbols, List.tail_cons]
    rw [lookAhead?_of_getElem?_eq_some hget hsymbol, fits]
    cases memo[(dot, pos)]? with
    | some known => rfl
    | none =>
      have hrange : (Candidates.upTo symbol pos goal.stop).InRange (ofInput g input) :=
        Candidates.inRange_upTo hpos hstop
      simp only
      rw [Candidates.anyNext?_eq (p := fun stop memo =>
          if (ofInput g input).reaches goal rule (dot + 1) stop then
            (ofInput g input).fits goal rule symbols (dot + 1) stop memo
          else (false, memo)) hg hrange rfl]
      · rfl
      · -- The ends that are tried are not beyond the goal.
        intro stop hmem memo
        have hle : stop ≤ goal.stop := (mem_toList_candidates_iff.1 hmem).1
        have hset : (ofInput g input).chart.setAt? stop =
            some ((ofInput g input).chart.setAt stop) :=
          Chart.setAt?_ofInput (Nat.le_trans hle hstop)
        rw [hset, Option.bind_some, reaches]
        split
        · exact ih hlt hle hdrop memo (by omega)
        · rfl

end Extents

end Earley
