/-
  `Derivation` — what a grammar derives, said in three ways.

  A rewriting step replaces one occurrence of the head of a rule by its body, and `Derives` is any
  number of steps. Symbols yield a text if they derive a sequence of terminals that match it one
  after another (`Yields`). This is the notion of every statement about languages.

  Proofs prefer to take a derivation apart at its first symbol. `Generates` is that reading over
  texts, and `Spans` the same over positions of an input; `yields_iff_generates` and
  `spans_iff_generates` say that all three agree.
-/
import Earley.Grammar.Basic
import Mathlib.Data.List.Forall2
import Mathlib.Logic.Relation

namespace Earley

/-! ### Parts of an input -/

/-- The characters of an input from `i` up to but not including `j`. -/
def slice (input : Array Char) (i j : Nat) : List Char := (input.extract i j).toList

section Slice

variable {input : Array Char} {i j k : Nat}

theorem slice_self (input : Array Char) (i : Nat) : slice input i i = [] := by
  simp [slice]

theorem length_slice (h : j ≤ input.size) : (slice input i j).length = j - i := by
  rw [slice, Array.length_toList, Array.size_extract_of_le h]

theorem slice_append_slice (hij : i ≤ j) (hjk : j ≤ k) :
    slice input i j ++ slice input j k = slice input i k := by
  rw [slice, slice, ← Array.toList_append, Array.extract_append_extract, Nat.min_eq_left hij,
    Nat.max_eq_right hjk, slice]

theorem slice_zero_size (input : Array Char) : slice input 0 input.size = input.toList := by
  simp [slice]

theorem slice_succ (h : i < input.size) : slice input i (i + 1) = [input[i]] := by
  rw [slice, Array.extract_succ_right (Nat.lt_succ_self i) h, Array.toList_push]
  simp

/-- A front part of a slice is the slice up to where that part ends. -/
theorem eq_slice_of_append {u v : List Char} (hik : i ≤ k) (hk : k ≤ input.size)
    (h : u ++ v = slice input i k) :
    i + u.length ≤ k ∧ u = slice input i (i + u.length) ∧ v = slice input (i + u.length) k := by
  have hlength := congrArg List.length h
  rw [List.length_append, length_slice hk] at hlength
  have hle : i + u.length ≤ k := by omega
  have hfront : u.length = (slice input i (i + u.length)).length := by
    rw [length_slice (by omega)]
    omega
  rw [← slice_append_slice (Nat.le_add_right i u.length) hle] at h
  exact ⟨hle, List.append_inj h hfront⟩

end Slice

/-! ### Terminals -/

namespace Terminal

/-- Tells that a terminal matches exactly the text `w`. -/
def Matches : Terminal → List Char → Prop
  | literal text, w => w = text
  | range lo hi, w => ∃ c, lo ≤ c ∧ c ≤ hi ∧ w = [c]

/-- Tells that terminals match `w` one after another: it is cut into as many pieces, each of them
matched by its terminal. -/
def MatchInTurn (ts : List Terminal) (w : List Char) : Prop :=
  ∃ pieces, List.Forall₂ Matches ts pieces ∧ pieces.flatten = w

theorem matchInTurn_nil : MatchInTurn [] [] := ⟨[], .nil, rfl⟩

theorem MatchInTurn.cons {t : Terminal} {ts : List Terminal} {u v : List Char} (ht : t.Matches u)
    (hts : MatchInTurn ts v) : MatchInTurn (t :: ts) (u ++ v) := by
  obtain ⟨pieces, hall, rfl⟩ := hts
  exact ⟨u :: pieces, .cons ht hall, rfl⟩

theorem MatchInTurn.append {ts ts' : List Terminal} {u v : List Char} (h : MatchInTurn ts u)
    (h' : MatchInTurn ts' v) : MatchInTurn (ts ++ ts') (u ++ v) := by
  obtain ⟨pieces, hall, rfl⟩ := h
  obtain ⟨pieces', hall', rfl⟩ := h'
  exact ⟨pieces ++ pieces', List.rel_append hall hall', List.flatten_append⟩

/-- Only the empty text is matched in turn by no terminals. -/
theorem eq_nil_of_matchInTurn_nil {w : List Char} (h : MatchInTurn [] w) : w = [] := by
  obtain ⟨pieces, hall, rfl⟩ := h
  cases hall
  rfl

theorem matchInTurn_cons_iff {t : Terminal} {ts : List Terminal} {w : List Char} :
    MatchInTurn (t :: ts) w ↔ ∃ u v, t.Matches u ∧ MatchInTurn ts v ∧ u ++ v = w := by
  constructor
  · rintro ⟨pieces, hall, rfl⟩
    cases hall with
    | @cons _ u _ pieces ht hall => exact ⟨u, pieces.flatten, ht, ⟨pieces, hall, rfl⟩, rfl⟩
  · rintro ⟨u, v, ht, hts, rfl⟩
    exact hts.cons ht

/-! ### Matching at a position -/

theorem literalAt_iff {input : Array Char} {cs : List Char} {pos : Nat} (h : pos ≤ input.size) :
    literalAt input cs pos = true ↔
      pos + cs.length ≤ input.size ∧ slice input pos (pos + cs.length) = cs := by
  induction cs generalizing pos with
  | nil => simp [literalAt, slice_self, h]
  | cons c cs ih =>
    have hlength : pos + (c :: cs).length = pos + 1 + cs.length := by
      rw [List.length_cons]
      omega
    rw [literalAt, Bool.and_eq_true, beq_iff_eq, hlength]
    -- The bound of `ih` is on the next position, which is in reach only within the input.
    by_cases hlt : pos < input.size
    · rw [ih hlt, Array.getElem?_eq_getElem hlt, Option.some.injEq,
        ← slice_append_slice (Nat.le_succ pos) (Nat.le_add_right (pos + 1) cs.length),
        slice_succ hlt, List.singleton_append, List.cons.injEq]
      exact and_left_comm
    · rw [Array.getElem?_eq_none (Nat.le_of_not_lt hlt)]
      constructor
      · rintro ⟨hnone, -⟩
        cases hnone
      · rintro ⟨hle, -⟩
        omega

/-- A match at a position is a match of the characters from there. -/
theorem matchAt_eq_some_iff {t : Terminal} {input : Array Char} {pos length : Nat}
    (h : pos ≤ input.size) :
    t.matchAt input pos = some length ↔
      pos + length ≤ input.size ∧ t.Matches (slice input pos (pos + length)) := by
  cases t with
  | literal text =>
    simp only [matchAt, Matches]
    constructor
    · intro hmatch
      split at hmatch
      · rename_i hat
        cases hmatch
        exact (literalAt_iff h).1 hat
      · cases hmatch
    · rintro ⟨hle, heq⟩
      have hlength : length = text.length := by
        have := congrArg List.length heq
        rw [length_slice hle] at this
        omega
      subst hlength
      rw [(literalAt_iff h).2 ⟨hle, heq⟩]
      rfl
  | range lo hi =>
    simp only [matchAt, Matches]
    constructor
    · intro hmatch
      split at hmatch
      · rename_i c hc
        obtain ⟨hlt, rfl⟩ := Array.getElem?_eq_some_iff.1 hc
        split at hmatch
        · rename_i hin
          cases hmatch
          exact ⟨hlt, _, hin.1, hin.2, slice_succ hlt⟩
        · cases hmatch
      · cases hmatch
    · rintro ⟨hle, c, hlo, hhi, heq⟩
      have hlength : length = 1 := by
        have := congrArg List.length heq
        rw [length_slice hle, List.length_singleton] at this
        omega
      subst hlength
      rw [slice_succ hle, List.singleton_inj] at heq
      subst heq
      rw [Array.getElem?_eq_getElem hle]
      simp only [hlo, hhi, and_self, if_true]

/-- Only a vacuous terminal matches the empty text. -/
theorem isVacuous_of_matches_nil {t : Terminal} (h : t.Matches []) : t.isVacuous = true := by
  cases t with
  | literal text =>
    cases h
    rfl
  | range lo hi =>
    obtain ⟨c, -, -, hnil⟩ := h
    cases hnil

end Terminal

namespace Grammar

/-! ### Rules by number -/

theorem rule_eq_getElem {g : Grammar} {index : Nat} (h : index < g.rules.size) :
    g.rule index = g.rules[index] := by
  rw [rule, Array.getD_eq_getD_getElem?, Array.getElem?_eq_getElem h, Option.getD_some]

theorem getElem?_rules {g : Grammar} {index : Nat} (h : index < g.rules.size) :
    g.rules[index]? = some (g.rule index) := by
  rw [Array.getElem?_eq_getElem h, rule_eq_getElem h]

theorem rule_mem {g : Grammar} {index : Nat} (h : index < g.rules.size) :
    g.rule index ∈ g.rules := by
  rw [rule_eq_getElem h]
  exact Array.getElem_mem h

theorem mem_rules_iff {g : Grammar} {rule : Rule} :
    rule ∈ g.rules ↔ ∃ index < g.rules.size, g.rule index = rule := by
  constructor
  · intro hmem
    obtain ⟨index, hlt, rfl⟩ := Array.mem_iff_getElem.1 hmem
    exact ⟨index, hlt, rule_eq_getElem hlt⟩
  · rintro ⟨index, hlt, rfl⟩
    exact rule_mem hlt

theorem take_size_body (rule : Rule) :
    rule.body.toList.take rule.body.size = rule.body.toList :=
  List.take_of_length_le (Nat.le_refl _)

/-! ### Rewriting -/

/-- One rewriting step: an occurrence of the head of a rule is replaced by the body. -/
def Rewrites (g : Grammar) (α β : List Symbol) : Prop :=
  ∃ rule ∈ g.rules, ∃ before after,
    α = before ++ .nonterm rule.head :: after ∧ β = before ++ rule.body.toList ++ after

/-- Any number of rewriting steps. -/
def Derives (g : Grammar) : List Symbol → List Symbol → Prop :=
  Relation.ReflTransGen g.Rewrites

/-- Tells that `α` derives a sequence of terminals that matches the text `w`. -/
def Yields (g : Grammar) (α : List Symbol) (w : List Char) : Prop :=
  ∃ ts, g.Derives α (ts.map .terminal) ∧ Terminal.MatchInTurn ts w

variable {g : Grammar} {α β γ δ : List Symbol}

theorem Derives.refl : g.Derives α α := Relation.ReflTransGen.refl

theorem Derives.trans (h : g.Derives α β) (h' : g.Derives β γ) : g.Derives α γ :=
  Relation.ReflTransGen.trans h h'

theorem Rewrites.append (h : g.Rewrites α β) (before after : List Symbol) :
    g.Rewrites (before ++ α ++ after) (before ++ β ++ after) := by
  obtain ⟨rule, hrule, before', after', rfl, rfl⟩ := h
  exact ⟨rule, hrule, before ++ before', after' ++ after, by simp, by simp⟩

/-- A derivation goes on in any surroundings. -/
theorem Derives.surround (h : g.Derives α β) (before after : List Symbol) :
    g.Derives (before ++ α ++ after) (before ++ β ++ after) := by
  induction h with
  | refl => exact Derives.refl
  | tail _ hstep ih => exact ih.tail (hstep.append before after)

theorem Derives.append (h : g.Derives α β) (h' : g.Derives γ δ) :
    g.Derives (α ++ γ) (β ++ δ) := by
  have hfront := h.surround [] γ
  have hback := h'.surround β []
  simp only [List.nil_append, List.append_nil] at hfront hback
  exact hfront.trans hback

theorem derives_of_rule {rule : Rule} (h : rule ∈ g.rules) :
    g.Derives [.nonterm rule.head] rule.body.toList :=
  Relation.ReflTransGen.single ⟨rule, h, [], [], rfl, by simp⟩

/-! ### Derivations from the first symbol on -/

/-- Tells that `α` derives the text `w`, one symbol after another. -/
inductive Generates (g : Grammar) : List Symbol → List Char → Prop
  | nil : Generates g [] []
  | terminal {t : Terminal} {α : List Symbol} {u v : List Char} (ht : t.Matches u)
      (hrest : Generates g α v) : Generates g (.terminal t :: α) (u ++ v)
  | nonterm {rule : Rule} {α : List Symbol} {u v : List Char} (hrule : rule ∈ g.rules)
      (hbody : Generates g rule.body.toList u) (hrest : Generates g α v) :
      Generates g (.nonterm rule.head :: α) (u ++ v)

theorem generates_nil_iff {w : List Char} : g.Generates [] w ↔ w = [] := by
  constructor
  · intro h
    cases h
    rfl
  · rintro rfl
    exact .nil

theorem generates_terminal_cons_iff {t : Terminal} {w : List Char} :
    g.Generates (.terminal t :: α) w ↔
      ∃ u v, t.Matches u ∧ g.Generates α v ∧ u ++ v = w := by
  constructor
  · intro h
    cases h with
    | terminal ht hrest => exact ⟨_, _, ht, hrest, rfl⟩
  · rintro ⟨u, v, ht, hrest, rfl⟩
    exact .terminal ht hrest

theorem generates_nonterm_cons_iff {id : Nat} {w : List Char} :
    g.Generates (.nonterm id :: α) w ↔
      ∃ rule ∈ g.rules, rule.head = id ∧
        ∃ u v, g.Generates rule.body.toList u ∧ g.Generates α v ∧ u ++ v = w := by
  constructor
  · intro h
    cases h with
    | nonterm hrule hbody hrest => exact ⟨_, hrule, rfl, _, _, hbody, hrest, rfl⟩
  · rintro ⟨rule, hrule, rfl, u, v, hbody, hrest, rfl⟩
    exact .nonterm hrule hbody hrest

theorem Generates.append {u v : List Char} (h : g.Generates α u) (h' : g.Generates β v) :
    g.Generates (α ++ β) (u ++ v) := by
  induction h with
  | nil => exact h'
  | terminal ht _ ih =>
    rw [List.append_assoc]
    exact .terminal ht ih
  | nonterm hrule hbody _ _ ih =>
    rw [List.append_assoc]
    exact .nonterm hrule hbody ih

/-- What two sequences of symbols generate together is cut where the first one ends. -/
theorem generates_append_iff {w : List Char} :
    g.Generates (α ++ β) w ↔ ∃ u v, g.Generates α u ∧ g.Generates β v ∧ u ++ v = w := by
  constructor
  · intro h
    induction α generalizing w with
    | nil => exact ⟨[], w, .nil, h, rfl⟩
    | cons symbol α ih =>
      cases symbol with
      | terminal t =>
        obtain ⟨u, v, ht, hrest, rfl⟩ := generates_terminal_cons_iff.1 h
        obtain ⟨u', v, hα, hβ, rfl⟩ := ih hrest
        exact ⟨u ++ u', v, .terminal ht hα, hβ, List.append_assoc _ _ _⟩
      | nonterm id =>
        obtain ⟨rule, hrule, rfl, u, v, hbody, hrest, rfl⟩ := generates_nonterm_cons_iff.1 h
        obtain ⟨u', v, hα, hβ, rfl⟩ := ih hrest
        exact ⟨u ++ u', v, .nonterm hrule hbody hα, hβ, List.append_assoc _ _ _⟩
  · rintro ⟨u, v, hα, hβ, rfl⟩
    exact hα.append hβ

theorem generates_nonterm_iff {id : Nat} {w : List Char} :
    g.Generates [.nonterm id] w ↔
      ∃ rule ∈ g.rules, rule.head = id ∧ g.Generates rule.body.toList w := by
  rw [generates_nonterm_cons_iff]
  constructor
  · rintro ⟨rule, hrule, hhead, u, v, hbody, hnil, rfl⟩
    obtain rfl := generates_nil_iff.1 hnil
    exact ⟨rule, hrule, hhead, by rwa [List.append_nil]⟩
  · rintro ⟨rule, hrule, hhead, hbody⟩
    exact ⟨rule, hrule, hhead, w, [], hbody, .nil, List.append_nil w⟩

theorem generates_map_terminal_iff {ts : List Terminal} {w : List Char} :
    g.Generates (ts.map .terminal) w ↔ Terminal.MatchInTurn ts w := by
  induction ts generalizing w with
  | nil =>
    rw [List.map_nil, generates_nil_iff]
    constructor
    · rintro rfl
      exact Terminal.matchInTurn_nil
    · exact Terminal.eq_nil_of_matchInTurn_nil
  | cons t ts ih =>
    rw [List.map_cons, generates_terminal_cons_iff, Terminal.matchInTurn_cons_iff]
    simp only [ih]

/-- A rewriting step can be taken back under `Generates`. -/
theorem Rewrites.generates {w : List Char} (h : g.Rewrites α β) (hβ : g.Generates β w) :
    g.Generates α w := by
  obtain ⟨rule, hrule, before, after, rfl, rfl⟩ := h
  obtain ⟨_, v, hfront, hafter, rfl⟩ := generates_append_iff.1 hβ
  obtain ⟨u, x, hbefore, hbody, rfl⟩ := generates_append_iff.1 hfront
  rw [List.append_assoc]
  exact hbefore.append (.nonterm hrule hbody hafter)

theorem Derives.generates {w : List Char} (h : g.Derives α β) (hβ : g.Generates β w) :
    g.Generates α w := by
  induction h with
  | refl => exact hβ
  | tail _ hstep ih => exact ih (hstep.generates hβ)

theorem Generates.yields {w : List Char} (h : g.Generates α w) : g.Yields α w := by
  induction h with
  | nil => exact ⟨[], Derives.refl, Terminal.matchInTurn_nil⟩
  | @terminal t α u v ht _ ih =>
    obtain ⟨ts, hderives, hmatch⟩ := ih
    exact ⟨t :: ts, (Derives.refl (α := [.terminal t])).append hderives, hmatch.cons ht⟩
  | nonterm hrule _ _ ihbody ihrest =>
    obtain ⟨ts, hderives, hmatch⟩ := ihbody
    obtain ⟨ts', hderives', hmatch'⟩ := ihrest
    refine ⟨ts ++ ts', ?_, hmatch.append hmatch'⟩
    rw [List.map_append]
    exact ((derives_of_rule hrule).trans hderives).append hderives'

/-- To derive a text by rewriting and to derive it symbol by symbol are the same. -/
theorem yields_iff_generates {w : List Char} : g.Yields α w ↔ g.Generates α w := by
  constructor
  · rintro ⟨ts, hderives, hmatch⟩
    exact hderives.generates (generates_map_terminal_iff.2 hmatch)
  · exact Generates.yields

/-! ### Derivations of a part of an input -/

/-- Tells that `α` derives the characters of the input from `i` up to but not including `j`. -/
inductive Spans (g : Grammar) (input : Array Char) : List Symbol → Nat → Nat → Prop
  | nil {i : Nat} : Spans g input [] i i
  | terminal {t : Terminal} {α : List Symbol} {i length k : Nat}
      (ht : t.matchAt input i = some length) (hrest : Spans g input α (i + length) k) :
      Spans g input (.terminal t :: α) i k
  | nonterm {index : Nat} {α : List Symbol} {i j k : Nat} (hindex : index < g.rules.size)
      (hbody : Spans g input (g.rule index).body.toList i j) (hrest : Spans g input α j k) :
      Spans g input (.nonterm (g.rule index).head :: α) i k

section Spans

variable {input : Array Char} {i j k : Nat}

theorem spans_nil_iff : g.Spans input [] i k ↔ i = k := by
  constructor
  · intro h
    cases h
    rfl
  · rintro rfl
    exact .nil

/-- A non-terminal spans what the bodies of its rules span. -/
theorem spans_nonterm_iff {id : Nat} :
    g.Spans input [.nonterm id] i k ↔
      ∃ index < g.rules.size, (g.rule index).head = id ∧
        g.Spans input (g.rule index).body.toList i k := by
  constructor
  · intro h
    cases h with
    | nonterm hindex hbody hrest =>
      obtain rfl := spans_nil_iff.1 hrest
      exact ⟨_, hindex, rfl, hbody⟩
  · rintro ⟨index, hindex, rfl, hbody⟩
    exact .nonterm hindex hbody .nil

theorem Spans.append (h : g.Spans input α i j) (h' : g.Spans input β j k) :
    g.Spans input (α ++ β) i k := by
  induction h with
  | nil => exact h'
  | terminal ht _ ih => exact .terminal ht (ih h')
  | nonterm hindex hbody _ _ ih => exact .nonterm hindex hbody (ih h')

/-- A span for two sequences of symbols has a position where the first one ends. -/
theorem exists_of_spans_append (h : g.Spans input (α ++ β) i k) :
    ∃ j, g.Spans input α i j ∧ g.Spans input β j k := by
  induction α generalizing i with
  | nil => exact ⟨i, .nil, h⟩
  | cons symbol α ih =>
    cases h with
    | terminal ht hrest =>
      obtain ⟨j, hα, hβ⟩ := ih hrest
      exact ⟨j, .terminal ht hα, hβ⟩
    | nonterm hindex hbody hrest =>
      obtain ⟨j, hα, hβ⟩ := ih hrest
      exact ⟨j, .nonterm hindex hbody hα, hβ⟩

theorem Spans.generates (h : g.Spans input α i k) (hi : i ≤ input.size) :
    i ≤ k ∧ k ≤ input.size ∧ g.Generates α (slice input i k) := by
  induction h with
  | nil => exact ⟨Nat.le_refl _, hi, by rw [slice_self]; exact .nil⟩
  | terminal ht _ ih =>
    obtain ⟨hle, hmatch⟩ := (Terminal.matchAt_eq_some_iff hi).1 ht
    obtain ⟨hjk, hk, hrest⟩ := ih hle
    refine ⟨by omega, hk, ?_⟩
    rw [← slice_append_slice (Nat.le_add_right _ _) hjk]
    exact .terminal hmatch hrest
  | nonterm hindex _ _ ihbody ihrest =>
    obtain ⟨hij, hj, hbody⟩ := ihbody hi
    obtain ⟨hjk, hk, hrest⟩ := ihrest hj
    refine ⟨Nat.le_trans hij hjk, hk, ?_⟩
    rw [← slice_append_slice hij hjk]
    exact .nonterm (rule_mem hindex) hbody hrest

theorem Generates.spans {w : List Char} (h : g.Generates α w) (hik : i ≤ k) (hk : k ≤ input.size)
    (hw : w = slice input i k) : g.Spans input α i k := by
  induction h generalizing i k with
  | nil =>
    have hlength := congrArg List.length hw
    rw [length_slice hk, List.length_nil] at hlength
    obtain rfl : i = k := by omega
    exact .nil
  | @terminal t α u v ht _ ih =>
    obtain ⟨hle, hu, hv⟩ := eq_slice_of_append hik hk hw
    refine .terminal ?_ (ih hle hk hv)
    rw [Terminal.matchAt_eq_some_iff (by omega), ← hu]
    exact ⟨by omega, ht⟩
  | nonterm hrule _ _ ihbody ihrest =>
    obtain ⟨hle, hu, hv⟩ := eq_slice_of_append hik hk hw
    obtain ⟨index, hindex, rfl⟩ := mem_rules_iff.1 hrule
    exact .nonterm hindex (ihbody (Nat.le_add_right _ _) (by omega) hu) (ihrest hle hk hv)

theorem spans_iff_generates (hi : i ≤ input.size) :
    g.Spans input α i k ↔ i ≤ k ∧ k ≤ input.size ∧ g.Generates α (slice input i k) := by
  constructor
  · intro h
    exact h.generates hi
  · rintro ⟨hik, hk, h⟩
    exact h.spans hik hk rfl

end Spans

/-! ### Where a non-terminal may begin -/

/-- Tells that a non-terminal may begin at a position: some sentential form has it there, behind
symbols that derive the input up to the position. -/
inductive Begins (g : Grammar) (input : Array Char) : Nat → Nat → Prop
  | start : Begins g input g.start 0
  | inside {index id i j : Nat} {before after : List Symbol}
      (hhead : Begins g input (g.rule index).head i) (hindex : index < g.rules.size)
      (hbody : (g.rule index).body.toList = before ++ .nonterm id :: after)
      (hbefore : g.Spans input before i j) : Begins g input id j

section Begins

variable {input : Array Char} {id j : Nat}

theorem Begins.exists_derives (h : g.Begins input id j) :
    j ≤ input.size ∧ ∃ ts after,
      g.Derives [.nonterm g.start] (ts.map .terminal ++ .nonterm id :: after) ∧
        Terminal.MatchInTurn ts (slice input 0 j) := by
  induction h with
  | start =>
    refine ⟨Nat.zero_le _, [], [], Derives.refl, ?_⟩
    rw [slice_self]
    exact Terminal.matchInTurn_nil
  | @inside index id i j before after _ hindex hbody hbefore ih =>
    obtain ⟨hi, ts, rest, hderives, hmatch⟩ := ih
    obtain ⟨hij, hj, hgenerates⟩ := hbefore.generates hi
    obtain ⟨ts', hderives', hmatch'⟩ := hgenerates.yields
    refine ⟨hj, ts ++ ts', after ++ rest, hderives.trans ?_, ?_⟩
    · -- First the head is replaced by its body, then what stands before the dot is derived.
      have hrule := (derives_of_rule (rule_mem hindex)).surround (ts.map .terminal) rest
      have hfront := hderives'.surround (ts.map .terminal) (.nonterm id :: after ++ rest)
      rw [hbody] at hrule
      simp only [List.append_assoc, List.cons_append, List.nil_append, List.map_append]
        at hrule hfront ⊢
      exact hrule.trans hfront
    · rw [← slice_append_slice (Nat.zero_le i) hij]
      exact hmatch.append hmatch'

theorem Begins.le_size (h : g.Begins input id j) : j ≤ input.size :=
  h.exists_derives.1

/-- An element of a list that is put together from two stands in one of them. -/
theorem append_eq_append_cons {β : Type} {x : β} {u v before after : List β}
    (h : u ++ v = before ++ x :: after) :
    (∃ rest, u = before ++ x :: rest ∧ after = rest ++ v) ∨
      ∃ front, before = u ++ front ∧ v = front ++ x :: after := by
  rcases List.append_eq_append_iff.1 h with ⟨front, rfl, rfl⟩ | ⟨rest, rfl, hrest⟩
  · exact Or.inr ⟨front, rfl, rfl⟩
  · cases rest with
    | nil => exact Or.inr ⟨[], by simp, hrest.symm⟩
    | cons y rest =>
      rw [List.cons_append, List.cons.injEq] at hrest
      obtain ⟨rfl, rfl⟩ := hrest
      exact Or.inl ⟨rest, rfl, rfl⟩

/-- Whatever stands in a sentential form behind symbols that derive the input up to `j` may begin
there. The induction is on the derivation; its last step has rewritten a symbol behind the
occurrence, has brought it in, or has rewritten one before it. -/
theorem begins_of_derives {α before after : List Symbol} (h : g.Derives [.nonterm g.start] α)
    (hα : α = before ++ .nonterm id :: after) (hspans : g.Spans input before 0 j) :
    g.Begins input id j := by
  induction h generalizing before id j after with
  | refl =>
    rcases before with _ | ⟨symbol, before⟩
    · cases hspans
      cases hα
      exact .start
    · cases before <;> cases hα
  | tail _ hstep ih =>
    obtain ⟨rule, hrule, u, v, rfl, rfl⟩ := hstep
    obtain ⟨index, hindex, rfl⟩ := mem_rules_iff.1 hrule
    rw [List.append_assoc] at hα
    rcases append_eq_append_cons hα with ⟨rest, rfl, -⟩ | ⟨front, rfl, hfront⟩
    · -- The occurrence stands before the rewritten symbol, so it was there already.
      exact @ih id j before (rest ++ .nonterm (g.rule index).head :: v) (by simp) hspans
    · obtain ⟨i, hu, hspans⟩ := exists_of_spans_append hspans
      rcases append_eq_append_cons hfront with ⟨rest, hbody, -⟩ | ⟨front, rfl, rfl⟩
      · -- The body of the rule has brought it in.
        exact .inside (ih rfl hu) hindex hbody hspans
      · -- It stands behind the body, and the head spans what the body does.
        obtain ⟨i', hbody, hspans⟩ := exists_of_spans_append hspans
        exact @ih id j (u ++ .nonterm (g.rule index).head :: front) after (by simp)
          (hu.append (.nonterm hindex hbody hspans))

/-- A non-terminal may begin at `j` if and only if the start symbol derives a sentential form that
has it behind the input up to `j`. -/
theorem begins_iff_exists_derives (hj : j ≤ input.size) :
    g.Begins input id j ↔ ∃ ts after,
      g.Derives [.nonterm g.start] (ts.map .terminal ++ .nonterm id :: after) ∧
        Terminal.MatchInTurn ts (slice input 0 j) := by
  constructor
  · intro h
    exact h.exists_derives.2
  · rintro ⟨ts, after, hderives, hmatch⟩
    exact begins_of_derives hderives rfl
      ((generates_map_terminal_iff.2 hmatch).spans (Nat.zero_le j) hj rfl)

end Begins

end Grammar

end Earley
