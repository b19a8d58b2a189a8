/-
  The forms of quoted texts and characters can be read back.

  No form of a character between quotes is the start of another one, and none of them starts with
  the quote itself. So the form of a text determines the text, and the form of a terminal determines
  the terminal (`Terminal.display_injective`). For this it does not matter which characters are
  visible, so the forms are taken here with any choice of them (`Quote.escapeBy`,
  `Terminal.displayBy`).
-/
import Earley.Ebnf.TokenStream
import Earley.Grammar.Symbol
import Mathlib.Data.List.Basic

namespace Earley

/-- What stands in front of the first `c` can be read off a text. -/
theorem append_cons_inj_of_notMem {α : Type} {c : α} {x y r s : List α} (hx : c ∉ x) (hy : c ∉ y)
    (h : x ++ c :: r = y ++ c :: s) : x = y ∧ r = s := by
  induction x generalizing y with
  | nil =>
    cases y with
    | nil => exact ⟨rfl, (List.cons.inj h).2⟩
    | cons d y => exact absurd ((List.cons.inj h).1 ▸ List.mem_cons_self ..) hy
  | cons d x ih =>
    cases y with
    | nil => exact absurd ((List.cons.inj h).1 ▸ List.mem_cons_self ..) hx
    | cons e y =>
      obtain ⟨rfl, htail⟩ := List.cons.inj h
      have hx' : c ∉ x := fun hc => hx (List.mem_cons_of_mem _ hc)
      have hy' : c ∉ y := fun hc => hy (List.mem_cons_of_mem _ hc)
      obtain ⟨rfl, hrest⟩ := ih hx' hy' htail
      exact ⟨rfl, hrest⟩

/-! ### Digits -/

theorem digitChar_inj_of_lt {m n : Nat} (hm : m < 16) (hn : n < 16)
    (h : m.digitChar = n.digitChar) : m = n := by
  have hall : ∀ m < 16, ∀ n < 16, Nat.digitChar m = Nat.digitChar n → m = n := by decide
  exact hall m hm n hn h

/-- The digits of a number to a base up to sixteen determine it. -/
theorem toDigits_injective {b : Nat} (hb : 1 < b) (hb' : b ≤ 16) :
    Function.Injective (Nat.toDigits b) := by
  intro m
  induction m using Nat.strongRecOn with
  | ind m ih =>
    intro n h
    have hlength := congrArg List.length h
    by_cases hm : m < b <;> by_cases hn : n < b
    · rw [Nat.toDigits_of_lt_base hm, Nat.toDigits_of_lt_base hn] at h
      exact digitChar_inj_of_lt (by omega) (by omega) (List.singleton_inj.1 h)
    -- One digit on one side, and more than one on the other.
    · rw [Nat.toDigits_of_lt_base hm, Nat.toDigits_of_base_le hb (by omega)] at hlength
      have := Nat.length_toDigits_pos (b := b) (n := n / b)
      simp only [List.length_append, List.length_singleton] at hlength
      omega
    · rw [Nat.toDigits_of_lt_base hn, Nat.toDigits_of_base_le hb (by omega)] at hlength
      have := Nat.length_toDigits_pos (b := b) (n := m / b)
      simp only [List.length_append, List.length_singleton] at hlength
      omega
    · rw [Nat.toDigits_of_base_le hb (Nat.not_lt.1 hm),
        Nat.toDigits_of_base_le hb (Nat.not_lt.1 hn)] at h
      obtain ⟨hinit, hdigit⟩ := List.append_inj' h rfl
      have hdiv : m / b = n / b := ih _ (Nat.div_lt_self (by omega) hb) hinit
      have hlt (k : Nat) : k % b < 16 := Nat.lt_of_lt_of_le (Nat.mod_lt k (by omega)) hb'
      have hmod : m % b = n % b := digitChar_inj_of_lt (hlt m) (hlt n) (List.singleton_inj.1 hdigit)
      rw [← Nat.div_add_mod m b, ← Nat.div_add_mod n b, hdiv, hmod]

/-- No digit is a closing brace. -/
theorem closeBrace_notMem_toDigits {b : Nat} (hb : 1 < b) (n : Nat) :
    '\x7d' ∉ Nat.toDigits b n := by
  induction n using Nat.strongRecOn with
  | ind n ih =>
    have hdigit (k : Nat) : '\x7d' ≠ k.digitChar := (Nat.digitChar_ne _ (by decide)).symm
    by_cases hn : n < b
    · simpa only [Nat.toDigits_of_lt_base hn, List.mem_singleton] using hdigit n
    · rw [Nat.toDigits_of_base_le hb (by omega), List.mem_append, List.mem_singleton]
      exact not_or.2 ⟨ih _ (Nat.div_lt_self (by omega) hb), hdigit _⟩

/-- Numbers that are followed by a closing brace can be read off a text. -/
theorem toDigits_append_closeBrace_inj {b m n : Nat} {r s : List Char} (hb : 1 < b) (hb' : b ≤ 16)
    (h : Nat.toDigits b m ++ '\x7d' :: r = Nat.toDigits b n ++ '\x7d' :: s) : m = n ∧ r = s := by
  obtain ⟨hdigits, hrest⟩ := append_cons_inj_of_notMem (closeBrace_notMem_toDigits hb m)
    (closeBrace_notMem_toDigits hb n) h
  exact ⟨toDigits_injective hb hb' hdigits, hrest⟩

/-! ### Characters between quotes -/

namespace Quote

variable {visible : Char → Bool} {q : Quote} {c d e : Char} {r s : List Char}

/-- The letter behind the backslash in the form of a character that has such a letter. -/
def letter (q : Quote) (c : Char) : Option Char :=
  if c = '\x00' then some '0'
  else if c = '\t' then some 't'
  else if c = '\r' then some 'r'
  else if c = '\n' then some 'n'
  else if c = '\\' then some '\\'
  else if c = q.mark then some c
  else none

/-- A character without a letter stands as it is, if it is visible. -/
def plainBy (visible : Char → Bool) (c : Char) : List Char :=
  if visible c then [c] else '\\' :: 'u' :: '\x7b' :: (Nat.toDigits 16 c.toNat ++ ['\x7d'])

theorem escapeBy_of_letter (h : q.letter c = some e) : q.escapeBy visible c = ['\\', e] := by
  unfold letter at h
  unfold escapeBy
  split_ifs at h ⊢ <;> rw [Option.some.inj h]

theorem escapeBy_of_letter_eq_none (h : q.letter c = none) :
    q.escapeBy visible c = plainBy visible c := by
  unfold letter at h
  unfold escapeBy plainBy
  split_ifs at h ⊢ <;> rfl

theorem ne_of_letter_eq_none (h : q.letter c = none) : c ≠ '\\' ∧ c ≠ q.mark := by
  unfold letter at h
  split_ifs at h with _ _ _ _ hbackslash hmark
  exact ⟨hbackslash, hmark⟩

/-- The letters have the same meaning in the literals of a grammar text. -/
theorem unescape_of_letter (h : q.letter c = some e) : unescape e = some c := by
  unfold letter at h
  split_ifs at h <;> obtain rfl := Option.some.inj h <;> subst c
  -- The letter of a quote is the quote itself, so this last case is one for each quote.
  all_goals first | rfl | cases q <;> rfl

theorem letter_inj (hc : q.letter c = some e) (hd : q.letter d = some e) : c = d :=
  Option.some.inj ((unescape_of_letter hc).symm.trans (unescape_of_letter hd))

theorem letter_ne_u (h : q.letter c = some e) : e ≠ 'u' := by
  rintro rfl
  cases unescape_of_letter h

theorem mark_ne_backslash (q : Quote) : q.mark ≠ '\\' := by
  cases q <;> decide

/-- The form of a character does not start with the quote. -/
theorem escapeBy_append_ne_mark_cons : q.escapeBy visible c ++ r ≠ q.mark :: s := by
  intro h
  cases hc : q.letter c with
  | some e =>
    rw [escapeBy_of_letter hc] at h
    exact q.mark_ne_backslash (List.cons.inj h).1.symm
  | none =>
    rw [escapeBy_of_letter_eq_none hc, plainBy] at h
    split at h
    · exact (ne_of_letter_eq_none hc).2 (List.cons.inj h).1
    · exact q.mark_ne_backslash (List.cons.inj h).1.symm

theorem plainBy_append_ne_letter (hc : q.letter c = none) (hd : q.letter d = some e) :
    plainBy visible c ++ r ≠ '\\' :: e :: s := by
  intro h
  unfold plainBy at h
  split at h
  · exact (ne_of_letter_eq_none hc).1 (List.cons.inj h).1
  · exact letter_ne_u hd (List.cons.inj (List.cons.inj h).2).1.symm

theorem plainBy_append_inj (hc : c ≠ '\\') (hd : d ≠ '\\')
    (h : plainBy visible c ++ r = plainBy visible d ++ s) : c = d ∧ r = s := by
  unfold plainBy at h
  split at h <;> split at h
  · exact List.cons.inj h
  -- The form of an invisible character starts with a backslash, that of a visible one does not.
  · exact absurd (List.cons.inj h).1 hc
  · exact absurd (List.cons.inj h).1.symm hd
  · simp only [List.cons_append, List.append_assoc, List.cons.injEq, true_and,
      List.nil_append] at h
    obtain ⟨hnat, hrest⟩ := toDigits_append_closeBrace_inj (by decide) (by decide) h
    exact ⟨Char.toNat_inj.1 hnat, hrest⟩

/-- No form of a character is the start of another one. -/
theorem escapeBy_append_inj (h : q.escapeBy visible c ++ r = q.escapeBy visible d ++ s) :
    c = d ∧ r = s := by
  cases hc : q.letter c with
  | some e =>
    cases hd : q.letter d with
    | some f =>
      rw [escapeBy_of_letter hc, escapeBy_of_letter hd] at h
      obtain ⟨-, htail⟩ := List.cons.inj h
      obtain ⟨rfl, hrest⟩ := List.cons.inj htail
      exact ⟨letter_inj hc hd, hrest⟩
    | none =>
      rw [escapeBy_of_letter hc, escapeBy_of_letter_eq_none hd] at h
      exact absurd h.symm (plainBy_append_ne_letter hd hc)
  | none =>
    cases hd : q.letter d with
    | some f =>
      rw [escapeBy_of_letter_eq_none hc, escapeBy_of_letter hd] at h
      exact absurd h (plainBy_append_ne_letter hc hd)
    | none =>
      rw [escapeBy_of_letter_eq_none hc, escapeBy_of_letter_eq_none hd] at h
      exact plainBy_append_inj (ne_of_letter_eq_none hc).1 (ne_of_letter_eq_none hd).1 h

/-- The characters between two quotes, and what follows, can be read off a text. -/
theorem encloseBy_append_inj {cs ds : List Char}
    (h : q.encloseBy visible cs ++ r = q.encloseBy visible ds ++ s) : cs = ds ∧ r = s := by
  simp only [encloseBy, List.cons_append, List.append_assoc, List.cons.injEq, true_and] at h
  induction cs generalizing ds with
  | nil =>
    cases ds with
    | nil => exact ⟨rfl, (List.cons.inj h).2⟩
    | cons d ds =>
      rw [List.flatMap_cons, List.append_assoc] at h
      exact absurd h.symm escapeBy_append_ne_mark_cons
  | cons c cs ih =>
    cases ds with
    | nil =>
      rw [List.flatMap_cons, List.append_assoc] at h
      exact absurd h escapeBy_append_ne_mark_cons
    | cons d ds =>
      rw [List.flatMap_cons, List.flatMap_cons, List.append_assoc, List.append_assoc] at h
      obtain ⟨rfl, htail⟩ := escapeBy_append_inj h
      obtain ⟨rfl, hrest⟩ := ih htail
      exact ⟨rfl, hrest⟩

theorem encloseBy_injective (visible : Char → Bool) (q : Quote) :
    Function.Injective (q.encloseBy visible) := by
  intro cs ds h
  have happend : q.encloseBy visible cs ++ [] = q.encloseBy visible ds ++ [] :=
    congrArg (· ++ []) h
  exact (encloseBy_append_inj happend).1

end Quote

/-! ### Terminals -/

namespace Terminal

variable (visible : Char → Bool)

theorem toList_displayBy_literal (text : List Char) :
    ((literal text).displayBy visible).toList = Quote.double.encloseBy visible text := by
  rw [displayBy, quoteTextBy, String.toList_ofList, String.toList_ofList]

theorem toList_displayBy_range (lo hi : Char) :
    ((range lo hi).displayBy visible).toList = Quote.single.encloseBy visible [lo] ++
      ("...".toList ++ Quote.single.encloseBy visible [hi]) := by
  simp only [displayBy, quoteCharBy, String.toList_append, String.toList_ofList,
    List.append_assoc]

/-- The form of a terminal starts with a quote. -/
theorem exists_toList_displayBy (t : Terminal) :
    ∃ (q : Quote) (cs : List Char), (t.displayBy visible).toList = q.mark :: cs := by
  cases t with
  | literal text => exact ⟨.double, _, toList_displayBy_literal visible text⟩
  | range lo hi => exact ⟨.single, _, toList_displayBy_range visible lo hi⟩

/-- The form of a terminal determines it, whichever characters are visible. -/
theorem displayBy_injective : Function.Injective (displayBy visible) := by
  intro t u h
  have hlist := congrArg String.toList h
  cases t with
  | literal text =>
    cases u with
    | literal text' =>
      rw [toList_displayBy_literal, toList_displayBy_literal] at hlist
      rw [Quote.double.encloseBy_injective visible hlist]
    | range lo hi =>
      -- The quotes at the start differ.
      rw [toList_displayBy_literal, toList_displayBy_range] at hlist
      exact absurd (List.cons.inj hlist).1 (by decide)
  | range lo hi =>
    cases u with
    | literal text =>
      rw [toList_displayBy_literal, toList_displayBy_range] at hlist
      exact absurd (List.cons.inj hlist).1 (by decide)
    | range lo' hi' =>
      rw [toList_displayBy_range, toList_displayBy_range] at hlist
      obtain ⟨hlo, htail⟩ := Quote.encloseBy_append_inj hlist
      have hhi := Quote.single.encloseBy_injective visible (List.append_cancel_left htail)
      rw [List.singleton_inj.1 hlo, List.singleton_inj.1 hhi]

/-- The form of a terminal determines it. -/
theorem display_injective : Function.Injective display := displayBy_injective isVisible

end Terminal

end Earley
