/-
  `Prefix` — recognition does not look ahead.

  The chart of an input begins with the chart of any of its prefixes, whatever follows
  (`setAt_run_append`). Both recognitions are run side by side: their sets up to the end of the
  prefix are the same, with their tables, from the start on (`Mirrors`). Up to there a terminal
  matches in the one input where it matches in the other (`matchAt_append_iff`), so an expansion
  puts the same items into those sets, in the same order. A literal that begins in the prefix and
  goes on behind it matches in the longer input alone, but then its item lands in a later set, and
  later sets are never read again. What is worked off behind the prefix leaves its sets alone.

  So the charts of two inputs have the same sets as far as the inputs agree
  (`chart_blind_to_rest`).
-/
import Earley.Proofs.Chart.Exact

namespace Earley

variable {g : Grammar} {front rest : Array Char}

/-! ### Matches in a prefix -/

theorem slice_append_left {i j : Nat} (hj : j ≤ front.size) :
    slice (front ++ rest) i j = slice front i j := by
  have hrest : rest.extract (i - front.size) (j - front.size) = #[] := by
    rw [Nat.sub_eq_zero_of_le hj, Array.extract_zero]
  rw [slice, Array.extract_append, hrest, Array.append_empty, slice]

/-- What a terminal matches within a prefix does not depend on what follows. -/
theorem Terminal.matchAt_append_iff {t : Terminal} {pos length : Nat}
    (hle : pos + length ≤ front.size) :
    t.matchAt (front ++ rest) pos = some length ↔ t.matchAt front pos = some length := by
  have hpos : pos ≤ front.size := by omega
  have hsize : (front ++ rest).size = front.size + rest.size := Array.size_append
  rw [matchAt_eq_some_iff hpos, matchAt_eq_some_iff (by omega), slice_append_left hle, hsize]
  simp only [hle, true_and, and_iff_right_iff_imp]
  omega

namespace Recognition

variable {r r' : Recognition} {pos k : Nat} {item : Item}

/-! ### What is inserted into one set -/

/-- What becomes of a set is told by what is inserted there, in order. -/
theorem setAt_insertEach {items : List (Nat × Item)} (hk : k < r.sets.size) :
    (r.insertEach g items).setAt k =
      (items.filter fun p => p.1 == k).foldl (fun s p => s.insert g p.2) (r.setAt k) := by
  induction items generalizing r with
  | nil => rfl
  | cons p items ih =>
    have hsize : (r.insert g p.1 p.2).sets.size = r.sets.size := Array.size_modify
    have hinsert := setAt_insert g r p.1 p.2 k
    rw [insertEach, List.foldl_cons, ← insertEach, ih (by omega)]
    by_cases hp : p.1 = k
    · rw [if_pos ⟨hp.symm, by omega⟩, hp] at hinsert
      rw [hp, hinsert, List.filter_cons_of_pos (by simp [hp]), List.foldl_cons]
    · rw [if_neg fun hcontra => hp hcontra.1.symm] at hinsert
      rw [hinsert, List.filter_cons_of_neg (by simp [hp])]

/-! ### Two recognitions side by side -/

/-- Tells that the second recognition, of an input with something behind the prefix, mirrors that
of the prefix alone: the sets up to the end of the prefix are the same. -/
structure Mirrors (g : Grammar) (front rest : Array Char) (r r' : Recognition) : Prop where
  intact : r.Intact g front.size
  intact' : r'.Intact g (front ++ rest).size
  bounded : r.Bounded g
  bounded' : r'.Bounded g
  same : ∀ k ≤ front.size, r'.setAt k = r.setAt k

/-- The additions for one of the sets up to the end of the prefix. -/
theorem Mirrors.filter_additions (h : Mirrors g front rest r r') (hpos : pos ≤ front.size)
    (hitem : item ∈ (r.setAt pos).items) (hk : k ≤ front.size) :
    (additions g (front ++ rest) pos r' item).filter (fun p => p.1 == k) =
      (additions g front pos r item).filter fun p => p.1 == k := by
  have hstart : item.start ≤ front.size := Nat.le_trans (h.bounded pos item hitem).start_le hpos
  unfold additions
  split
  · rfl
  · rename_i t _
    cases hmatch : t.matchAt front pos with
    | some length =>
      have hle : pos + length ≤ front.size := ((Terminal.matchAt_eq_some_iff hpos).1 hmatch).1
      rw [(Terminal.matchAt_append_iff hle).2 hmatch]
    | none =>
      -- In the longer input there may be a match, but it ends behind the prefix.
      cases hmatch' : t.matchAt (front ++ rest) pos with
      | none => rfl
      | some length =>
        have hlt : front.size < pos + length := by
          by_contra hle
          rw [Terminal.matchAt_append_iff (by omega), hmatch] at hmatch'
          cases hmatch'
        have hne : ¬(pos + length == k) = true := by
          rw [beq_iff_eq]
          omega
        show List.filter _ [(pos + length, item.advance)] = []
        exact List.filter_cons_of_neg hne
  · rw [h.same item.start hstart]

/-- An expansion changes the sets of the prefix in the same way. -/
theorem Mirrors.expand (hg : g.WellFormed) (h : Mirrors g front rest r r')
    (hpos : pos ≤ front.size) (hitem : item ∈ (r.setAt pos).items) :
    Mirrors g front rest (r.expand g front pos item) (r'.expand g (front ++ rest) pos item) := by
  have hsize : (front ++ rest).size = front.size + rest.size := Array.size_append
  have hpos' : pos ≤ (front ++ rest).size := by omega
  have hitem' : item ∈ (r'.setAt pos).items := by rwa [h.same pos hpos]
  refine ⟨h.intact.expand front pos item, h.intact'.expand (front ++ rest) pos item,
    h.bounded.expand hg h.intact hpos hitem, h.bounded'.expand hg h.intact' hpos' hitem', ?_⟩
  intro k hk
  have hlt : k < r.sets.size := by
    rw [h.intact.size]
    omega
  have hlt' : k < r'.sets.size := by
    rw [h.intact'.size]
    omega
  rw [setAt_expand, setAt_expand, setAt_insertEach hlt, setAt_insertEach hlt', h.same k hk,
    h.filter_additions hpos hitem hk]

/-- The sets of the prefix are worked off side by side. -/
theorem Mirrors.drain (hg : g.WellFormed) (h : Mirrors g front rest r r') (hpos : pos ≤ front.size)
    (fuel cursor : Nat) :
    Mirrors g front rest (r.drain g front pos fuel cursor)
      (r'.drain g (front ++ rest) pos fuel cursor) := by
  induction fuel generalizing cursor r r' with
  | zero => exact h
  | succ fuel ih =>
    rw [Recognition.drain, Recognition.drain, h.same pos hpos]
    cases hitem : (r.setAt pos).items[cursor]? with
    | none => exact h
    | some item => exact ih (h.expand hg hpos (Array.mem_of_getElem? hitem)) (cursor + 1)

theorem mirrors_start (hg : g.WellFormed) (front rest : Array Char) :
    Mirrors g front rest (start g front.size) (start g (front ++ rest).size) := by
  have hempty : ∀ length k, setAt ⟨Array.replicate (length + 1) .empty, 0⟩ k = .empty := by
    intro length k
    rw [setAt, Array.getD_eq_getD_getElem?, Array.getElem?_replicate]
    split <;> rfl
  refine ⟨intact_start g _, intact_start g _, bounded_start hg _, bounded_start hg _, ?_⟩
  intro k hk
  have hsize : (front ++ rest).size = front.size + rest.size := Array.size_append
  rw [start, start, insertAll_eq, insertAll_eq, setAt_insertEach, setAt_insertEach, hempty, hempty]
  · rw [Array.size_replicate]
    omega
  · rw [Array.size_replicate]
    omega

theorem Mirrors.foldl_drainAt (hg : g.WellFormed) (h : Mirrors g front rest r r')
    {positions : List Nat} (hpositions : ∀ pos ∈ positions, pos ≤ front.size) :
    Mirrors g front rest (positions.foldl (drainAt g front g.slots) r)
      (positions.foldl (drainAt g (front ++ rest) g.slots) r') := by
  induction positions generalizing r r' with
  | nil => exact h
  | cons pos positions ih =>
    obtain ⟨hpos, hpositions⟩ := List.forall_mem_cons.1 hpositions
    exact ih (h.drain hg hpos _ _) hpositions

/-! ### Behind the prefix -/

/-- To work off later sets leaves the earlier ones alone. -/
theorem extends_foldl_drainAt (hg : g.WellFormed) {input : Array Char}
    (h : r.Intact g input.size) (hr : r.Bounded g) {positions : List Nat}
    (hpositions : ∀ p ∈ positions, pos ≤ p ∧ p ≤ input.size) :
    Extends pos r (positions.foldl (drainAt g input g.slots) r) := by
  induction positions generalizing r with
  | nil => exact Extends.refl pos r
  | cons p positions ih =>
    obtain ⟨⟨hle, hp⟩, hpositions⟩ := List.forall_mem_cons.1 hpositions
    obtain ⟨hintact, hbounded, hextends⟩ := drain_spec hg h hr hp ((p + 1) * g.slots) 0
    exact (hextends.mono hle).trans (ih hintact hbounded hpositions)

/-- **The sets of a prefix are those of the whole input.** -/
theorem setAt_run_append (hg : g.WellFormed) (front rest : Array Char) (hk : k ≤ front.size) :
    (run g (front ++ rest)).setAt k = (run g front).setAt k := by
  have hmirrors : Mirrors g front rest (run g front)
      ((List.range (front.size + 1)).foldl (drainAt g (front ++ rest) g.slots)
        (start g (front ++ rest).size)) := by
    refine (mirrors_start hg front rest).foldl_drainAt hg fun pos hpos => ?_
    rw [List.mem_range] at hpos
    omega
  -- The positions of the longer input are those of the prefix and then the later ones.
  have hsize : (front ++ rest).size + 1 = (front.size + 1) + rest.size := by
    rw [Array.size_append]
    omega
  have hlater : ∀ p ∈ (List.range rest.size).map (front.size + 1 + ·),
      front.size + 1 ≤ p ∧ p ≤ (front ++ rest).size := by
    intro p hp
    obtain ⟨i, hi, rfl⟩ := List.mem_map.1 hp
    rw [List.mem_range] at hi
    omega
  have hextends := extends_foldl_drainAt hg hmirrors.intact' hmirrors.bounded' hlater
  rw [run, hsize, List.range_add, List.foldl_append, hextends.same k (Nat.lt_succ_of_le hk),
    hmirrors.same k hk]

end Recognition

/-- **The chart does not look ahead.** Two inputs that begin with the same characters have the same
state sets at all positions up to where these end: the same items in the same order, with the same
tables, whatever follows in the inputs. -/
theorem chart_blind_to_rest {steps : List Step} {start : String} {g : Grammar}
    (h : Grammar.build steps start = .ok g) (common rest rest' : List Char) :
    ∀ k ≤ common.length, ∃ s,
      (Chart.ofInput g (common ++ rest).toArray).setAt? k = some s ∧
        (Chart.ofInput g (common ++ rest').toArray).setAt? k = some s := by
  have hg := Grammar.wellFormed_of_build h
  intro k hk
  have hset : ∀ rest : List Char, (Chart.ofInput g (common ++ rest).toArray).setAt? k =
      some ((Recognition.run g common.toArray).setAt k) := by
    intro rest
    have hle : k ≤ (common ++ rest).toArray.size := by
      rw [List.size_toArray, List.length_append]
      omega
    rw [Chart.setAt?_ofInput hle, Chart.setAt_ofInput, ← List.append_toArray,
      Recognition.setAt_run_append hg _ _ hk]
  exact ⟨_, hset rest, hset rest'⟩

/-- The steps for the grammar `S -> "ab" | "a" S |`, in which two literals begin alike. -/
def overlappingSteps : List Step :=
  [.nonterm false "S", .terminal false "ab" (.literal ['a', 'b']),
    .terminal false "a" (.literal ['a']), .rule false "S" ["ab"], .rule false "S" ["a", "S"],
    .rule false "S" []]

theorem run_overlappingSteps :
    (Builder.run overlappingSteps).error = none ∧
      (Builder.run overlappingSteps).symbols["S"]? = some (.nonterm 0) ∧
      (Builder.run overlappingSteps).nonterms = #["S"] ∧
      (Builder.run overlappingSteps).rules =
        #[⟨0, #[.terminal (.literal ['a', 'b'])]⟩, ⟨0, #[.terminal (.literal ['a']), .nonterm 0]⟩,
          ⟨0, #[]⟩] := by
  cbv

/-- A literal that begins in the common prefix matches in one of the inputs only; the other input is
not even in the language. -/
theorem chart_blind_to_rest_overlapping :
    ∃ g s, Grammar.build overlappingSteps "S" = .ok g ∧
      (Chart.ofInput g #['a', 'b']).setAt? 1 = some s ∧
        (Chart.ofInput g #['a', 'c', 'a']).setAt? 1 = some s := by
  obtain ⟨g, hbuild, -⟩ := Grammar.exists_build_of_run run_overlappingSteps (by decide +kernel)
  obtain ⟨s, hs, hs'⟩ := chart_blind_to_rest hbuild ['a'] ['b'] ['c', 'a'] 1 (Nat.le_refl 1)
  exact ⟨g, s, hbuild, hs, hs'⟩

end Earley
