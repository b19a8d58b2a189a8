/-
  `Nullable` — the non-terminals that derive the empty text are exactly those in the table.

  Every mark is justified by a rule whose symbols were marked before, so a marked non-terminal
  derives the empty text. Conversely a round that marks nothing has found the table closed under
  the rules; as every other round marks a non-terminal, and there are `count` of them, one of
  `count + 1` rounds marks nothing (`exists_rounds_table`). So the bound on the rounds is never
  what ends them. In a closed table every symbol that derives the empty text is marked.

  `nullable_exact` puts this together for the grammars that are built from steps.
-/
import Earley.Proofs.Grammar.WellFormed
import Mathlib.Algebra.Order.BigOperators.Group.Finset

namespace Earley

namespace Nullable

/-- Tells that a table is closed under the rules: it has the head of each rule of which it has all
symbols in the body. -/
def Closed (rules : List Rule) (marks : Array Bool) : Prop :=
  ∀ rule ∈ rules, rule.body.all (marked marks) = true → marks.getD rule.head false = true

/-- The marked non-terminals. -/
def markedSet (marks : Array Bool) : Finset Nat :=
  (Finset.range marks.size).filter fun id => marks.getD id false = true

theorem mem_markedSet_iff {marks : Array Bool} {id : Nat} :
    id ∈ markedSet marks ↔ marks.getD id false = true := by
  rw [markedSet, Finset.mem_filter, Finset.mem_range, and_iff_right_iff_imp]
  intro h
  by_contra hle
  rw [Array.getD_eq_getD_getElem?, Array.getElem?_eq_none (Nat.le_of_not_lt hle)] at h
  cases h

theorem card_markedSet_le (marks : Array Bool) : (markedSet marks).card ≤ marks.size := by
  have hle := Finset.card_filter_le (Finset.range marks.size)
    fun id => marks.getD id false = true
  rwa [Finset.card_range] at hle

theorem getD_setIfInBounds {marks : Array Bool} {head : Nat} (h : head < marks.size) (id : Nat) :
    (marks.setIfInBounds head true).getD id false = true ↔
      id = head ∨ marks.getD id false = true := by
  rw [Array.getD_eq_getD_getElem?, Array.getD_eq_getD_getElem?, Array.getElem?_setIfInBounds]
  by_cases heq : head = id
  · subst heq
    simp [h]
  · simp [heq, Ne.symm heq]

/-! ### One visit -/

/-- What a visit to a rule does: nothing, or it marks the head, which was not marked. -/
theorem visit_cases (state : Array Bool × Bool) (rule : Rule) :
    visit state rule = state ∧
        (rule.body.all (marked state.1) = true → state.1.getD rule.head false = true) ∨
      visit state rule = (state.1.setIfInBounds rule.head true, true) ∧
        state.1.getD rule.head false = false ∧ rule.body.all (marked state.1) = true := by
  obtain ⟨marks, changed⟩ := state
  unfold visit
  dsimp only
  split
  · rename_i hhead
    exact Or.inl ⟨rfl, fun _ => hhead⟩
  · rename_i hhead
    split
    · rename_i hbody
      exact Or.inr ⟨rfl, by simpa using hhead, hbody⟩
    · rename_i hbody
      exact Or.inl ⟨rfl, fun h => absurd h hbody⟩

/-- Going through rules, either nothing is marked, and the table is closed under them, or there
are more marks than before. -/
theorem foldl_visit_cases (rules : List Rule) (marks : Array Bool) (changed : Bool)
    (hheads : ∀ rule ∈ rules, rule.head < marks.size) :
    rules.foldl visit (marks, changed) = (marks, changed) ∧ Closed rules marks ∨
      ∃ marks', rules.foldl visit (marks, changed) = (marks', true) ∧
        marks'.size = marks.size ∧ markedSet marks ⊂ markedSet marks' := by
  induction rules generalizing marks changed with
  | nil => exact Or.inl ⟨rfl, fun rule hrule => absurd hrule List.not_mem_nil⟩
  | cons rule rules ih =>
    have hrest : ∀ r ∈ rules, r.head < marks.size := fun r hr =>
      hheads r (List.mem_cons_of_mem _ hr)
    rw [List.foldl_cons]
    rcases visit_cases (marks, changed) rule with ⟨hvisit, hclosed⟩ | ⟨hvisit, hnew, -⟩
    · rw [hvisit]
      rcases ih marks changed hrest with ⟨hfold, hrules⟩ | hmore
      · exact Or.inl ⟨hfold, List.forall_mem_cons.2 ⟨hclosed, hrules⟩⟩
      · exact Or.inr hmore
    · -- Later visits only add marks, so the new one is still there in the end.
      rw [hvisit]
      have hhead := hheads rule List.mem_cons_self
      have hmarked : markedSet marks ⊂ markedSet (marks.setIfInBounds rule.head true) := by
        rw [Finset.ssubset_iff_of_subset]
        · refine ⟨rule.head, ?_, ?_⟩
          · rw [mem_markedSet_iff, getD_setIfInBounds hhead]
            exact Or.inl rfl
          · rw [mem_markedSet_iff, hnew]
            exact Bool.false_ne_true
        · intro id hid
          rw [mem_markedSet_iff] at hid ⊢
          exact (getD_setIfInBounds hhead id).2 (Or.inr hid)
      have hsize : (marks.setIfInBounds rule.head true).size = marks.size :=
        Array.size_setIfInBounds
      rcases ih (marks.setIfInBounds rule.head true) true (by rwa [hsize]) with
        ⟨hfold, -⟩ | ⟨marks', hfold, hsize', hmore⟩
      · exact Or.inr ⟨_, hfold, hsize, hmarked⟩
      · exact Or.inr ⟨marks', hfold, hsize'.trans hsize, hmarked.trans hmore⟩

/-! ### All rounds -/

/-- Tells that going through the rules again and again leads from `marks` to `marks'` in a number of
rounds: every round but the last marks something, and the last one nothing. -/
inductive Rounds (rules : Array Rule) : Nat → Array Bool → Array Bool → Prop
  | last {marks marks' : Array Bool} (h : round rules marks = (marks', false)) :
    Rounds rules 1 marks marks'
  | more {rounds : Nat} {marks next marks' : Array Bool} (h : round rules marks = (next, true))
      (hrest : Rounds rules rounds next marks') : Rounds rules (rounds + 1) marks marks'

/-- A round marks nothing, and the table is closed, or there are more marks than before. -/
theorem round_cases {rules : Array Rule} {marks : Array Bool}
    (hheads : ∀ rule ∈ rules, rule.head < marks.size) :
    round rules marks = (marks, false) ∧ Closed rules.toList marks ∨
      ∃ next, round rules marks = (next, true) ∧
        next.size = marks.size ∧ markedSet marks ⊂ markedSet next := by
  rw [round, ← Array.foldl_toList]
  exact foldl_visit_cases rules.toList marks false
    fun rule hrule => hheads rule (Array.mem_toList_iff.1 hrule)

/-- The rounds come to an end, with at most one more of them than there are non-terminals without a
mark, and the table is closed then. The induction is on the number of these. -/
theorem exists_rounds {rules : Array Rule} {marks : Array Bool}
    (hheads : ∀ rule ∈ rules, rule.head < marks.size) :
    ∃ rounds marks', Rounds rules rounds marks marks' ∧
      rounds + (markedSet marks).card ≤ marks.size + 1 ∧ Closed rules.toList marks' := by
  induction hunmarked : marks.size - (markedSet marks).card using Nat.strong_induction_on
    generalizing marks with
  | _ unmarked ih =>
    have hle := card_markedSet_le marks
    rcases round_cases hheads with ⟨hround, hclosed⟩ | ⟨next, hround, hsize, hmore⟩
    · exact ⟨1, marks, .last hround, by omega, hclosed⟩
    · have hlt := Finset.card_lt_card hmore
      have hle' := card_markedSet_le next
      obtain ⟨rounds, marks', hrest, hbound, hclosed⟩ :=
        ih (next.size - (markedSet next).card) (by omega) (by rwa [hsize]) rfl
      exact ⟨rounds + 1, marks', .more hround hrest, by omega, hclosed⟩

/-- A budget that is enough for all rounds has no influence on the result. -/
theorem Rounds.close_eq {rules : Array Rule} {rounds budget : Nat} {marks marks' : Array Bool}
    (h : Rounds rules rounds marks marks') (hbudget : rounds ≤ budget) :
    close rules budget marks = marks' := by
  induction h generalizing budget with
  | last hround =>
    obtain ⟨budget, rfl⟩ := Nat.exists_eq_add_of_le' hbudget
    rw [close, hround]
  | more hround _ ih =>
    obtain ⟨budget, rfl⟩ := Nat.exists_eq_add_of_le' (Nat.le_trans (Nat.le_add_left 1 _) hbudget)
    rw [close, hround]
    exact ih (Nat.le_of_succ_le_succ hbudget)

/-- The table is what the rounds come to, with at most one more of them than there are
non-terminals, and it is closed. -/
theorem exists_rounds_table {count : Nat} {rules : Array Rule}
    (hheads : ∀ rule ∈ rules, rule.head < count) :
    (∃ rounds ≤ count + 1, Rounds rules rounds (Array.replicate count false) (table count rules)) ∧
      Closed rules.toList (table count rules) := by
  have hinTable : ∀ rule ∈ rules, rule.head < (Array.replicate count false).size := by
    rwa [Array.size_replicate]
  obtain ⟨rounds, marks', hrounds, hbound, hclosed⟩ := exists_rounds hinTable
  rw [Array.size_replicate] at hbound
  have htable : table count rules = marks' := hrounds.close_eq (by omega)
  rw [htable]
  exact ⟨⟨rounds, by omega, hrounds⟩, hclosed⟩

/-- A property of tables that every justified mark keeps holds in the end. -/
theorem close_induction {rules : Array Rule} {P : Array Bool → Prop}
    (hmark : ∀ marks, ∀ rule ∈ rules, P marks → rule.body.all (marked marks) = true →
      P (marks.setIfInBounds rule.head true))
    (rounds : Nat) (marks : Array Bool) (h : P marks) : P (close rules rounds marks) := by
  have hround (marks : Array Bool) (h : P marks) : P (round rules marks).1 := by
    refine Array.foldl_induction (fun _ (state : Array Bool × Bool) => P state.1) h ?_
    intro i state hstate
    rcases visit_cases state rules[i] with ⟨hvisit, -⟩ | ⟨hvisit, -, hbody⟩
    · rwa [hvisit]
    · rw [hvisit]
      exact hmark _ _ (Array.getElem_mem i.2) hstate hbody
  induction rounds generalizing marks with
  | zero => exact h
  | succ rounds ih =>
    have hnext := hround marks h
    rw [close]
    split
    · rename_i heq
      rw [heq] at hnext
      exact ih _ hnext
    · rename_i heq
      rwa [heq] at hnext

/-- The table has a mark, set or not, for every non-terminal. -/
theorem size_table (count : Nat) (rules : Array Rule) : (table count rules).size = count := by
  refine close_induction (P := fun marks => marks.size = count) ?_ _ _ Array.size_replicate
  intro marks rule _ hsize _
  rw [Array.size_setIfInBounds, hsize]

end Nullable

/-! ### Marks and derivations -/

namespace Grammar

variable {g : Grammar}

theorem getElem?_nullable (hg : g.WellFormed) {id : Nat} (hid : id < g.nonterms.size) :
    g.nullable[id]? = some (g.isNullable id) := by
  have hlt : id < g.nullable.size := by
    rw [hg.nullable_eq, Nullable.size_table]
    exact hid
  rw [isNullable, Array.getD_eq_getD_getElem?, Array.getElem?_eq_getElem hlt, Option.getD_some]

/-- Symbols that are all marked derive no symbols, if marked non-terminals do. -/
theorem derives_nil_of_marked {marks : Array Bool}
    (hmarks : ∀ id, marks.getD id false = true → g.Derives [.nonterm id] [])
    {α : List Symbol} (h : ∀ symbol ∈ α, Nullable.marked marks symbol = true) :
    g.Derives α [] := by
  induction α with
  | nil => exact Derives.refl
  | cons symbol α ih =>
    obtain ⟨hsymbol, hα⟩ := List.forall_mem_cons.1 h
    cases symbol with
    | terminal t => cases hsymbol
    | nonterm id => exact (hmarks id hsymbol).append (ih hα)

theorem derives_nil_of_isNullable (hg : g.WellFormed) {id : Nat} (h : g.isNullable id = true) :
    g.Derives [.nonterm id] [] := by
  have hall : ∀ id, (Nullable.table g.nonterms.size g.rules).getD id false = true →
      g.Derives [.nonterm id] [] := by
    refine Nullable.close_induction
      (P := fun marks => ∀ id, marks.getD id false = true → g.Derives [.nonterm id] []) ?_ _ _ ?_
    · intro marks rule hrule hmarks hbody id hid
      -- A mark outside of the table is no mark, and so the case needs no bound on the head.
      by_cases hhead : rule.head < marks.size
      · rcases (Nullable.getD_setIfInBounds hhead id).1 hid with rfl | hid
        · apply (derives_of_rule hrule).trans
          refine derives_nil_of_marked hmarks fun symbol hsymbol => ?_
          exact Array.all_eq_true_iff_forall_mem.1 hbody symbol (Array.mem_toList_iff.1 hsymbol)
        · exact hmarks id hid
      · rw [Array.setIfInBounds, dif_neg hhead] at hid
        exact hmarks id hid
    · intro id hid
      rw [Array.getD_eq_getD_getElem?, Array.getElem?_replicate] at hid
      split at hid <;> cases hid
  rw [isNullable, hg.nullable_eq] at h
  exact hall id h

theorem marked_of_generates_nil (hg : g.WellFormed) {α : List Symbol} {w : List Char}
    (h : g.Generates α w) (hw : w = [])
    (hα : ∀ t, Symbol.terminal t ∈ α → t.isVacuous = false) :
    ∀ symbol ∈ α, Nullable.marked g.nullable symbol = true := by
  induction h with
  | nil => exact fun symbol hsymbol => absurd hsymbol List.not_mem_nil
  | @terminal t α u v ht _ _ =>
    -- No terminal in a rule of the grammar matches the empty text.
    obtain ⟨rfl, -⟩ := List.append_eq_nil_iff.1 hw
    have hvacuous := Terminal.isVacuous_of_matches_nil ht
    rw [hα t List.mem_cons_self] at hvacuous
    cases hvacuous
  | @nonterm rule α u v hrule _ _ ihbody ihrest =>
    obtain ⟨rfl, rfl⟩ := List.append_eq_nil_iff.1 hw
    have hbody := ihbody rfl fun t ht => hg.not_vacuous rule hrule t (Array.mem_toList_iff.1 ht)
    obtain ⟨-, hclosed⟩ := Nullable.exists_rounds_table hg.head_lt
    rw [← hg.nullable_eq] at hclosed
    refine List.forall_mem_cons.2 ⟨?_, ihrest rfl fun t ht => hα t (List.mem_cons_of_mem _ ht)⟩
    refine hclosed rule (Array.mem_toList_iff.2 hrule) ?_
    rw [Array.all_eq_true_iff_forall_mem]
    exact fun symbol hsymbol => hbody symbol (Array.mem_toList_iff.2 hsymbol)

theorem isNullable_of_generates_nil (hg : g.WellFormed) {id : Nat}
    (h : g.Generates [.nonterm id] []) : g.isNullable id = true := by
  have hmarked := marked_of_generates_nil hg h rfl (by simp)
  exact hmarked (.nonterm id) List.mem_cons_self

/-- A non-terminal is in the table if and only if it derives the empty text. -/
theorem isNullable_eq_true_iff (hg : g.WellFormed) {id : Nat} :
    g.isNullable id = true ↔ g.Generates [.nonterm id] [] :=
  ⟨fun h => (derives_nil_of_isNullable hg h).generates .nil, isNullable_of_generates_nil hg⟩

/-- As no terminal of a grammar matches the empty text, the empty text is derived by the
non-terminals that derive no symbols. -/
theorem isNullable_eq_true_iff_derives (hg : g.WellFormed) {id : Nat} :
    g.isNullable id = true ↔ g.Derives [.nonterm id] [] :=
  ⟨derives_nil_of_isNullable hg, fun h => isNullable_of_generates_nil hg (h.generates .nil)⟩

end Grammar

/-- **The table of non-terminals that derive the empty text is exact**, in every grammar that is
built from steps. It has an entry for every non-terminal, which is set just if the non-terminal
derives the empty text, that is, no symbols at all. It is what going through the rules comes to when
a round marks nothing more, and that takes at most one round more than there are non-terminals. -/
theorem nullable_exact {steps : List Step} {start : String} {g : Grammar}
    (h : Grammar.build steps start = .ok g) :
    (∀ id < g.nonterms.size, g.nullable[id]? = some (g.isNullable id) ∧
      (g.isNullable id = true ↔ g.Yields [.nonterm id] []) ∧
      (g.isNullable id = true ↔ g.Derives [.nonterm id] [])) ∧
    ∃ rounds ≤ g.nonterms.size + 1,
      Nullable.Rounds g.rules rounds (Array.replicate g.nonterms.size false) g.nullable := by
  have hg := Grammar.wellFormed_of_build h
  refine ⟨fun id hid => ⟨Grammar.getElem?_nullable hg hid, ?_, ?_⟩, ?_⟩
  · rw [Grammar.isNullable_eq_true_iff hg, Grammar.yields_iff_generates]
  · exact Grammar.isNullable_eq_true_iff_derives hg
  · rw [hg.nullable_eq]
    exact (Nullable.exists_rounds_table hg.head_lt).1

/-- The steps for non-terminals that derive the empty text through each other: `S -> T`, `T -> U U`,
`U -> S` and, as the last rule, `U ->`. -/
def chainedSteps : List Step :=
  [.nonterm false "S", .nonterm false "T", .nonterm false "U", .rule false "S" ["T"],
    .rule false "T" ["U", "U"], .rule false "U" ["S"], .rule false "U" []]

/-- The rules of `chainedSteps`. -/
def chainedRules : Array Rule :=
  #[⟨0, #[.nonterm 1]⟩, ⟨1, #[.nonterm 2, .nonterm 2]⟩, ⟨2, #[.nonterm 0]⟩, ⟨2, #[]⟩]

/-- Every round marks a single non-terminal of `chainedSteps`, so the last possible one is needed
to mark nothing. -/
theorem rounds_chainedRules :
    Nullable.Rounds chainedRules 4 (Array.replicate 3 false) #[true, true, true] :=
  have hfirst : Nullable.round chainedRules (Array.replicate 3 false) =
      (#[false, false, true], true) := by decide +kernel
  have hsecond : Nullable.round chainedRules #[false, false, true] =
      (#[false, true, true], true) := by decide +kernel
  have hthird : Nullable.round chainedRules #[false, true, true] =
      (#[true, true, true], true) := by decide +kernel
  have hlast : Nullable.round chainedRules #[true, true, true] =
      (#[true, true, true], false) := by decide +kernel
  .more hfirst (.more hsecond (.more hthird (.last hlast)))

theorem run_chainedSteps :
    (Builder.run chainedSteps).error = none ∧
      (Builder.run chainedSteps).symbols["S"]? = some (.nonterm 0) ∧
      (Builder.run chainedSteps).nonterms = #["S", "T", "U"] ∧
      (Builder.run chainedSteps).rules = chainedRules := by
  cbv

theorem nullable_exact_chainedSteps :
    ∃ g, Grammar.build chainedSteps "S" = .ok g ∧ (∀ id < 3, g.Derives [.nonterm id] []) ∧
      ∃ rounds ≤ 4, Nullable.Rounds g.rules rounds (Array.replicate 3 false) g.nullable := by
  obtain ⟨g, hbuild, -, hnonterms, hrules⟩ :=
    Grammar.exists_build_of_run run_chainedSteps (by decide +kernel)
  have hsize : g.nonterms.size = 3 := by
    rw [hnonterms]
    rfl
  obtain ⟨hexact, hrounds⟩ := nullable_exact hbuild
  rw [hsize] at hexact hrounds
  refine ⟨g, hbuild, fun id hid => ?_, hrounds⟩
  obtain ⟨hentry, -, hderives⟩ := hexact id hid
  have htable : g.nullable = #[true, true, true] := by
    rw [(Grammar.wellFormed_of_build hbuild).nullable_eq, hsize, hrules]
    exact rounds_chainedRules.close_eq (Nat.le_refl 4)
  rw [htable] at hentry
  have hall : ∀ id < 3, (#[true, true, true] : Array Bool)[id]? = some true := by decide
  exact hderives.1 (Option.some.inj (hentry.symm.trans (hall id hid)))

end Earley
