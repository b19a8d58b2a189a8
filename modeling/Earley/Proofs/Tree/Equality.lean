/-
  To compare two trees is to tell whether they are equal.

  If the own parts of two trees agree, which includes how many children there are, then the trees
  are equal exactly if their children are, one by one (`eq_iff_of_sameRoot`). So the question
  whether the two trees of each pending pair are equal is the same before and after a pair is
  replaced by the pairs of its children (`Turn.allEqual_iff`). It does not matter which pair is
  taken up, nor where the new ones are put: every comparison ends (`wellFounded_turn`), and says
  whether the trees it began with are equal (`Compared.eq_true_iff`).
-/
import Earley.Tree.Equality
import Mathlib.Data.List.Forall2

namespace Earley

namespace ParseTree

variable {t u : ParseTree} {pending next : List (ParseTree × ParseTree)}

/-! ### One pair of trees -/

/-- Tells that the two trees of each pair are equal. -/
def AllEqual (pending : List (ParseTree × ParseTree)) : Prop := ∀ p ∈ pending, p.1 = p.2

theorem allEqual_cons_iff {p : ParseTree × ParseTree} :
    AllEqual (p :: pending) ↔ p.1 = p.2 ∧ AllEqual pending :=
  List.forall_mem_cons

theorem allEqual_append_iff : AllEqual (pending ++ next) ↔ AllEqual pending ∧ AllEqual next :=
  List.forall_mem_append

theorem allEqual_iff_of_perm (h : pending.Perm next) : AllEqual pending ↔ AllEqual next :=
  forall_congr' fun _ => imp_congr_left h.mem_iff

/-- Lists of one length are equal if their pairs are; pairing them leaves none out. -/
theorem allEqual_zip_iff {ts us : List ParseTree} (h : ts.length = us.length) :
    AllEqual (ts.zip us) ↔ ts = us :=
  calc AllEqual (ts.zip us) ↔ List.Forall₂ Eq ts us :=
        ⟨fun hall => List.forall₂_iff_zip.2 ⟨h, hall _⟩,
          fun hforall _ hp => (List.forall₂_iff_zip.1 hforall).2 hp⟩
    _ ↔ ts = us := by rw [List.forall₂_eq_eq_eq]

theorem sameRoot_self (t : ParseTree) : t.sameRoot t = true := by
  cases t <;> simp [sameRoot]

/-- Trees whose own parts agree are equal if their children are, one by one. -/
theorem eq_iff_of_sameRoot (h : t.sameRoot u = true) :
    t = u ↔ AllEqual (t.children.zip u.children) := by
  cases t with
  | leaf terminal text span =>
    cases u with
    | leaf terminal' text' span' =>
      obtain ⟨⟨rfl, rfl⟩, rfl⟩ : (terminal = terminal' ∧ text = text') ∧ span = span' := by
        simpa [sameRoot] using h
      simp [AllEqual, children]
    | node => cases h
  | node head rule span ts =>
    cases u with
    | leaf => cases h
    | node head' rule' span' us =>
      obtain ⟨⟨⟨rfl, rfl⟩, rfl⟩, hlength⟩ :
          ((head = head' ∧ rule = rule') ∧ span = span') ∧ ts.length = us.length := by
        simpa [sameRoot] using h
      rw [children, children, allEqual_zip_iff hlength, node.injEq]
      simp only [true_and]

/-! ### Comparisons in any order -/

/-- One turn of a comparison: some pending pair of trees whose own parts agree makes room for the
pairs of their children, wherever these are put. -/
inductive Turn (pending next : List (ParseTree × ParseTree)) : Prop
  | intro {t u : ParseTree} {rest : List (ParseTree × ParseTree)}
      (hpair : pending.Perm ((t, u) :: rest)) (hroot : t.sameRoot u = true)
      (hnext : next.Perm (t.children.zip u.children ++ rest))

/-- What a comparison of pending pairs comes to, whichever pair is taken up at each turn. -/
inductive Compared : List (ParseTree × ParseTree) → Bool → Prop
  /-- Nothing is left to compare. -/
  | same : Compared [] true
  /-- The own parts of two trees do not agree, whatever else is pending. -/
  | differ {pending : List (ParseTree × ParseTree)} {t u : ParseTree} (hpair : (t, u) ∈ pending)
      (hroot : t.sameRoot u = false) : Compared pending false
  | turn {pending next : List (ParseTree × ParseTree)} {answer : Bool}
      (hturn : Turn pending next) (hrest : Compared next answer) : Compared pending answer

/-- No turn changes whether the pending trees are equal. -/
theorem Turn.allEqual_iff (h : Turn pending next) : AllEqual next ↔ AllEqual pending := by
  obtain ⟨hpair, hroot, hnext⟩ := h
  rw [allEqual_iff_of_perm hnext, allEqual_iff_of_perm hpair, allEqual_append_iff,
    allEqual_cons_iff, eq_iff_of_sameRoot hroot]

/-- Every turn leaves less to compare: two trees are gone, and only their children may come in. -/
theorem Turn.sizeAll_lt (h : Turn pending next) :
    sizeAll (next.map Prod.fst) < sizeAll (pending.map Prod.fst) := by
  obtain @⟨t, u, rest, hpair, -, hnext⟩ := h
  have hle := sizeAll_map_fst_zip_le t.children u.children
  rw [sizeAll_eq_of_perm (hnext.map Prod.fst), sizeAll_eq_of_perm (hpair.map Prod.fst),
    List.map_append, sizeAll_append, List.map_cons, sizeAll, size_eq t]
  omega

/-- No comparison goes on for ever. -/
theorem wellFounded_turn : WellFounded fun next pending => Turn pending next :=
  Subrelation.wf Turn.sizeAll_lt
    (measure fun pending : List (ParseTree × ParseTree) => sizeAll (pending.map Prod.fst)).wf

/-- Every comparison says whether the trees are equal. -/
theorem Compared.eq_true_iff {answer : Bool} (h : Compared pending answer) :
    answer = true ↔ AllEqual pending := by
  induction h with
  | same => simp [AllEqual]
  | @differ pending t u hpair hroot =>
    -- One pair that differs is enough, wherever it stands among the others.
    have hne : t ≠ u := by
      rintro rfl
      rw [sameRoot_self] at hroot
      cases hroot
    exact ⟨fun h => Bool.noConfusion h, fun hall => absurd (hall _ hpair) hne⟩
  | turn hturn _ ih => rw [ih, hturn.allEqual_iff]

/-- To take up the first pair at every turn is one way to compare. -/
theorem compared_sameAll (pending : List (ParseTree × ParseTree)) :
    Compared pending (sameAll pending) := by
  fun_induction sameAll pending with
  | case1 => exact .same
  | case2 t u pending ih =>
    cases hroot : t.sameRoot u with
    | false => exact .differ (List.mem_cons_self ..) hroot
    | true =>
      have hnext := (t.children.zip u.children).reverse_perm.append_right pending
      rw [Bool.true_and]
      exact .turn ⟨List.Perm.refl _, hroot, hnext⟩ ih

theorem sameAll_eq_true_iff : sameAll pending = true ↔ AllEqual pending :=
  (compared_sameAll pending).eq_true_iff

theorem beq_eq_true_iff : (t == u) = true ↔ t = u := by
  show sameAll [(t, u)] = true ↔ t = u
  rw [sameAll_eq_true_iff, allEqual_cons_iff]
  simp [AllEqual]

/-- **Trees compare as equal exactly if they are**, so that this is an equivalence; and to take up
the pairs in another order, whichever it is, comes to an end with the same answer. -/
theorem comparing_decides :
    (∀ t u : ParseTree, (t == u) = true ↔ t = u) ∧
      (Equivalence fun t u : ParseTree => (t == u) = true) ∧
      (WellFounded fun next pending => Turn pending next) ∧
      ∀ (t u : ParseTree) (answer : Bool), Compared [(t, u)] answer ↔ answer = (t == u) := by
  refine ⟨fun t u => beq_eq_true_iff, ⟨?_, ?_, ?_⟩, wellFounded_turn, fun t u answer => ?_⟩
  · exact fun t => beq_eq_true_iff.2 rfl
  · exact fun h => beq_eq_true_iff.2 (beq_eq_true_iff.1 h).symm
  · exact fun h h' => beq_eq_true_iff.2 ((beq_eq_true_iff.1 h).trans (beq_eq_true_iff.1 h'))
  · have hsame : Compared [(t, u)] (t == u) := compared_sameAll [(t, u)]
    constructor
    · intro hanswer
      rw [Bool.eq_iff_iff, hanswer.eq_true_iff, hsame.eq_true_iff]
    · rintro rfl
      exact hsame

end ParseTree

end Earley
