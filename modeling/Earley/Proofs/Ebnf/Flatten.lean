/-
  Flattening keeps the languages of atoms.

  A valuation that is closed under the steps of a flattening gives at least the language of an
  atom to the names that the atom is flattened to (`language_le_sequence`). A valuation that gives
  to each numbered bracket exactly what the bracket denotes gives exactly the language of an atom
  to these names, and is closed under the steps (`sequence_flatten`).

  Both are proved along the syntax of atoms. The brackets that get a number are listed in the
  order of their numbers (`Atom.brackets`), so that the number of a bracket is its place in the
  list.
-/
import Earley.Ebnf.Flatten
import Earley.Proofs.Ebnf.Language
import Earley.Proofs.Ebnf.Names

open Computability

namespace Earley

namespace Steps

variable {P : Step → Prop}

/-- Tells that `P` holds for all of some steps. -/
def All (P : Step → Prop) (steps : Steps) : Prop := ∀ step ∈ steps.toList, P step

theorem all_none (P : Step → Prop) : none.All P := by
  intro step h
  cases h

theorem all_one {step : Step} : (one step).All P ↔ P step := List.forall_mem_singleton

theorem all_append {steps steps' : Steps} :
    (steps ++ steps').All P ↔ steps.All P ∧ steps'.All P := by
  simp only [All, toList_append, List.forall_mem_append]

end Steps

/-! ### Brackets that get a number -/

/-- Tells that brackets leave no trace: they are spliced into the sequence around them. -/
inductive Bracket.IsSpliced : Bracket → List (List Atom) → Prop
  | group (alternative : List Atom) : IsSpliced .group [alternative]

namespace Atom

mutual

/-- The brackets in an atom that get a number, in the order in which they open. -/
def brackets : Atom → List (Bracket × List (List Atom))
  | .nested .group [alternative] => bracketsIn alternative
  | .nested bracket body => (bracket, body) :: bracketsAmong body
  | .reference _ _ | .literal _ | .range _ _ => []

/-- The brackets in a sequence of atoms that get a number. -/
def bracketsIn : List Atom → List (Bracket × List (List Atom))
  | [] => []
  | atom :: atoms => atom.brackets ++ bracketsIn atoms

/-- The brackets in a list of alternatives that get a number. -/
def bracketsAmong : List (List Atom) → List (Bracket × List (List Atom))
  | [] => []
  | alternative :: body => bracketsIn alternative ++ bracketsAmong body

end

theorem brackets_nested {bracket : Bracket} {body : List (List Atom)}
    (h : ¬bracket.IsSpliced body) :
    (Atom.nested bracket body).brackets = (bracket, body) :: bracketsAmong body := by
  rw [brackets]
  rintro alternative rfl rfl
  exact h (.group alternative)

theorem flatten_nested {form : Terminal → String} {rule : String} {opened : Nat} {bracket : Bracket}
    {body : List (List Atom)} (h : ¬bracket.IsSpliced body) :
    (Atom.nested bracket body).flatten form rule opened =
      let auxiliary := bracket.auxiliary rule (opened + 1)
      let inner := flattenAmong form rule auxiliary (bracket.lead auxiliary) (opened + 1) body
      ⟨[auxiliary], .one (.nonterm true auxiliary) ++ inner.1 ++ bracket.closing auxiliary,
        inner.2⟩ := by
  rw [flatten]
  rintro alternative rfl rfl
  exact h (.group alternative)

section Opened

variable (form : Terminal → String) (rule : String)

mutual

theorem opened_flatten (opened : Nat) (atom : Atom) :
    (atom.flatten form rule opened).opened = opened + atom.brackets.length := by
  cases atom with
  | reference => rfl
  | literal text =>
    rw [flatten]
    split <;> rfl
  | range => rfl
  | nested bracket body =>
    by_cases h : bracket.IsSpliced body
    · cases h with | group alternative =>
      rw [flatten, brackets]
      exact opened_flattenIn opened alternative
    · -- One number is for the bracket, and the rest are for those inside.
      rw [flatten_nested h, brackets_nested h, List.length_cons]
      exact (opened_flattenAmong _ _ (opened + 1) body).trans (by omega)

theorem opened_flattenIn (opened : Nat) (atoms : List Atom) :
    (flattenIn form rule opened atoms).opened = opened + (bracketsIn atoms).length := by
  cases atoms with
  | nil => rfl
  | cons atom atoms =>
    have hfirst := opened_flatten opened atom
    have hrest := opened_flattenIn (atom.flatten form rule opened).opened atoms
    rw [flattenIn, bracketsIn, List.length_append]
    dsimp only
    omega

theorem opened_flattenAmong (head : String) (lead : List String) (opened : Nat)
    (body : List (List Atom)) :
    (flattenAmong form rule head lead opened body).2 = opened + (bracketsAmong body).length := by
  cases body with
  | nil => rfl
  | cons alternative body =>
    have hfirst := opened_flattenIn opened alternative
    have hrest := opened_flattenAmong head lead (flattenIn form rule opened alternative).opened body
    rw [flattenAmong, bracketsAmong, List.length_append]
    dsimp only
    omega

end

end Opened

end Atom

/-! ### Names in the steps -/

namespace Atom

section Names

variable {form : Terminal → String} {rule : String}

mutual

theorem keepsApart_flatten
    (hform : ∀ (bracket : Bracket) number t, bracket.auxiliary rule number ≠ form t)
    (opened : Nat) (atom : Atom) :
    (atom.flatten form rule opened).steps.All (Step.KeepsApart form) := by
  cases atom with
  | reference => exact Steps.all_none _
  | literal text =>
    rw [flatten]
    split
    · exact Steps.all_none _
    · exact Steps.all_one.2 rfl
  | range lo hi => exact Steps.all_one.2 rfl
  | nested bracket body =>
    by_cases h : bracket.IsSpliced body
    · cases h with | group alternative =>
      rw [flatten]
      exact keepsApart_flattenIn hform opened alternative
    · rw [flatten_nested h]
      refine Steps.all_append.2 ⟨Steps.all_append.2 ⟨?_, keepsApart_flattenAmong hform _ body⟩, ?_⟩
      · exact Steps.all_one.2 (hform bracket (opened + 1))
      · cases bracket with
        | optional | repetition => exact Steps.all_one.2 trivial
        | group => exact Steps.all_none _

theorem keepsApart_flattenIn
    (hform : ∀ (bracket : Bracket) number t, bracket.auxiliary rule number ≠ form t)
    (opened : Nat) (atoms : List Atom) :
    (flattenIn form rule opened atoms).steps.All (Step.KeepsApart form) := by
  cases atoms with
  | nil => exact Steps.all_none _
  | cons atom atoms =>
    rw [flattenIn]
    exact Steps.all_append.2
      ⟨keepsApart_flatten hform opened atom, keepsApart_flattenIn hform _ atoms⟩

theorem keepsApart_flattenAmong
    (hform : ∀ (bracket : Bracket) number t, bracket.auxiliary rule number ≠ form t)
    {head : String} {lead : List String} (opened : Nat) (body : List (List Atom)) :
    (flattenAmong form rule head lead opened body).1.All (Step.KeepsApart form) := by
  cases body with
  | nil => exact Steps.all_none _
  | cons alternative body =>
    rw [flattenAmong]
    refine Steps.all_append.2 ⟨Steps.all_append.2 ⟨?_, Steps.all_one.2 trivial⟩, ?_⟩
    · exact keepsApart_flattenIn hform opened alternative
    · exact keepsApart_flattenAmong hform _ body

end

end Names

end Atom

/-! ### What the steps ask for -/

/-- The rules of a bracket ask for no less than what the bracket denotes. -/
theorem Bracket.language_le {V : Valuation} {bracket : Bracket} {auxiliary : String}
    {L : Language Char} (hbody : V.sequence (bracket.lead auxiliary) * L ≤ V auxiliary)
    (hclosing : (bracket.closing auxiliary).All V.ClosedUnder) :
    bracket.language L ≤ V auxiliary := by
  cases bracket with
  | optional =>
    have hempty : (1 : Language Char) ≤ V auxiliary := Steps.all_one.1 hclosing
    rw [lead, Valuation.sequence_nil, one_mul] at hbody
    exact add_le hbody hempty
  | repetition =>
    have hempty : (1 : Language Char) ≤ V auxiliary := Steps.all_one.1 hclosing
    rw [lead, Valuation.sequence_cons, Valuation.sequence_nil, mul_one] at hbody
    exact kstar_le_of_mul_le_left hempty hbody
  | group =>
    rwa [lead, Valuation.sequence_nil, one_mul] at hbody

theorem Valuation.language_le_sequence_ofTerminal {V : Valuation} {form : Terminal → String}
    {t : Terminal} {opened : Nat}
    (hV : (Flattened.ofTerminal form t opened).steps.All V.ClosedUnder) :
    t.language ≤ V.sequence (Flattened.ofTerminal form t opened).names := by
  rw [Flattened.ofTerminal, Valuation.sequence_cons, Valuation.sequence_nil, mul_one]
  exact Steps.all_one.1 hV

namespace Atom

theorem language_literal_of_isEmpty {text : String} (h : text.isEmpty = true) (V : Valuation) :
    (literal text).language V = 1 := by
  rw [String.isEmpty_iff] at h
  subst h
  rfl

section Below

variable {V : Valuation} {form : Terminal → String} {rule : String}

mutual

theorem language_le_sequence {opened : Nat} (atom : Atom)
    (hV : (atom.flatten form rule opened).steps.All V.ClosedUnder) :
    atom.language V ≤ V.sequence (atom.flatten form rule opened).names := by
  cases atom with
  | reference name _ =>
    rw [flatten, Valuation.sequence_cons, Valuation.sequence_nil, mul_one]
    exact le_rfl
  | literal text =>
    by_cases h : text.isEmpty = true
    · rw [flatten, if_pos h, language_literal_of_isEmpty h]
      exact le_rfl
    · rw [flatten, if_neg h] at hV ⊢
      exact Valuation.language_le_sequence_ofTerminal hV
  | range lo hi => exact Valuation.language_le_sequence_ofTerminal hV
  | nested bracket body =>
    by_cases h : bracket.IsSpliced body
    · cases h with | group alternative =>
      -- A spliced bracket is its only alternative, both in the steps and in the language.
      rw [flatten] at hV ⊢
      rw [language, languageAmong, languageAmong, add_zero]
      exact languageIn_le_sequence alternative hV
    · -- The sequence sees only the name of the bracket, so the rules of that name are what counts.
      rw [flatten_nested h] at hV ⊢
      obtain ⟨hfront, hclosing⟩ := Steps.all_append.1 hV
      obtain ⟨-, hinner⟩ := Steps.all_append.1 hfront
      rw [Valuation.sequence_cons, Valuation.sequence_nil, mul_one]
      exact bracket.language_le (languageAmong_le_head body hinner) hclosing

theorem languageIn_le_sequence {opened : Nat} (atoms : List Atom)
    (hV : (flattenIn form rule opened atoms).steps.All V.ClosedUnder) :
    languageIn V atoms ≤ V.sequence (flattenIn form rule opened atoms).names := by
  cases atoms with
  | nil => exact le_rfl
  | cons atom atoms =>
    rw [flattenIn] at hV ⊢
    obtain ⟨hfirst, hrest⟩ := Steps.all_append.1 hV
    rw [Valuation.sequence_append]
    exact mul_le_mul' (language_le_sequence atom hfirst) (languageIn_le_sequence atoms hrest)

theorem languageAmong_le_head {head : String} {lead : List String} {opened : Nat}
    (body : List (List Atom))
    (hV : (flattenAmong form rule head lead opened body).1.All V.ClosedUnder) :
    V.sequence lead * languageAmong V body ≤ V head := by
  cases body with
  | nil =>
    rw [languageAmong, mul_zero]
    exact zero_le
  | cons alternative body =>
    rw [flattenAmong] at hV
    obtain ⟨hfront, hrest⟩ := Steps.all_append.1 hV
    obtain ⟨hfirst, hrule⟩ := Steps.all_append.1 hfront
    have halternative :
        V.sequence (lead ++ (flattenIn form rule opened alternative).names) ≤ V head :=
      Steps.all_one.1 hrule
    rw [Valuation.sequence_append] at halternative
    -- Each alternative stands behind the lead, hence the lead is on the left of the whole sum.
    rw [languageAmong, mul_add]
    have hle := languageIn_le_sequence alternative hfirst
    exact add_le ((mul_le_mul_right hle _).trans halternative) (languageAmong_le_head body hrest)

end

end Below

end Atom

/-! ### References -/

namespace Atom

mutual

theorem mem_references_of_mem {reference : Reference} {after : List Reference}
    (h : reference ∈ after) (atom : Atom) : reference ∈ atom.references after := by
  cases atom with
  | reference => exact List.mem_cons_of_mem _ h
  | literal | range => exact h
  | nested _ body => exact mem_referencesAmong_of_mem h body

theorem mem_referencesIn_of_mem {reference : Reference} {after : List Reference}
    (h : reference ∈ after) (atoms : List Atom) : reference ∈ referencesIn after atoms := by
  cases atoms with
  | nil => exact h
  | cons atom atoms => exact mem_references_of_mem (mem_referencesIn_of_mem h atoms) atom

theorem mem_referencesAmong_of_mem {reference : Reference} {after : List Reference}
    (h : reference ∈ after) (body : List (List Atom)) :
    reference ∈ referencesAmong after body := by
  cases body with
  | nil => exact h
  | cons alternative body =>
    exact mem_referencesIn_of_mem (mem_referencesAmong_of_mem h body) alternative

end

end Atom

/-! ### What the steps allow -/

namespace Valuation

variable {V env : Valuation} {rule : String} {opened : Nat}
  {numbered numbered' : List (Bracket × List (List Atom))}

/-- Tells that `V` gives to the names of terminals what the terminals match. -/
def NamesTerminals (V : Valuation) : Prop := ∀ t : Terminal, V t.display = t.language

/-- Tells that `V` gives to the brackets of a list, which have the numbers behind `opened`, what
they denote under `env`. -/
def NamesBrackets (V env : Valuation) (rule : String) (opened : Nat)
    (numbered : List (Bracket × List (List Atom))) : Prop :=
  ∀ (i : Nat) (bracket : Bracket) (body : List (List Atom)), numbered[i]? = some (bracket, body) →
    V (bracket.auxiliary rule (opened + i + 1)) = bracket.language (Atom.languageAmong env body)

/-- Tells that two valuations give the same to the names in some references. -/
def AgreesOn (V env : Valuation) (references : List Reference) : Prop :=
  ∀ reference ∈ references, V reference.name = env reference.name

theorem AgreesOn.after {after : List Reference} {atom : Atom}
    (h : V.AgreesOn env (atom.references after)) : V.AgreesOn env after :=
  fun _ hmem => h _ (atom.mem_references_of_mem hmem)

theorem AgreesOn.afterIn {after : List Reference} {atoms : List Atom}
    (h : V.AgreesOn env (Atom.referencesIn after atoms)) : V.AgreesOn env after :=
  fun _ hmem => h _ (Atom.mem_referencesIn_of_mem hmem atoms)

theorem NamesBrackets.left (h : V.NamesBrackets env rule opened (numbered ++ numbered')) :
    V.NamesBrackets env rule opened numbered := by
  intro i bracket body hi
  have hlt := (List.getElem?_eq_some_iff.1 hi).1
  exact h i bracket body (by rwa [List.getElem?_append_left hlt])

theorem NamesBrackets.right (h : V.NamesBrackets env rule opened (numbered ++ numbered')) :
    V.NamesBrackets env rule (opened + numbered.length) numbered' := by
  intro i bracket body hi
  rw [Nat.add_assoc opened]
  refine h (numbered.length + i) bracket body ?_
  rwa [List.getElem?_append_right (Nat.le_add_right _ _), Nat.add_sub_cancel_left]

theorem NamesBrackets.tail {entry : Bracket × List (List Atom)}
    (h : V.NamesBrackets env rule opened (entry :: numbered)) :
    V.NamesBrackets env rule (opened + 1) numbered := by
  have happend : V.NamesBrackets env rule opened ([entry] ++ numbered) := h
  exact happend.right

theorem sequence_ofTerminal (hterminal : V.NamesTerminals) (t : Terminal) :
    V.sequence (Flattened.ofTerminal Terminal.display t opened).names = t.language := by
  rw [Flattened.ofTerminal, sequence_cons, sequence_nil, mul_one, hterminal]

theorem all_closedUnder_ofTerminal (hterminal : V.NamesTerminals) (t : Terminal) :
    (Flattened.ofTerminal Terminal.display t opened).steps.All V.ClosedUnder :=
  Steps.all_one.2 (hterminal t).ge

end Valuation

namespace Bracket

variable {V : Valuation} {bracket : Bracket} {auxiliary : String} {L : Language Char}

/-- The rules of a bracket ask for no more than what the bracket denotes. -/
theorem lead_mul_le (h : V auxiliary = bracket.language L) :
    V.sequence (bracket.lead auxiliary) * L ≤ V auxiliary := by
  rw [h]
  cases bracket with
  | optional => exact (one_mul L).le.trans (le_add_right le_rfl)
  | repetition =>
    rw [lead, Valuation.sequence_cons, Valuation.sequence_nil, mul_one, h]
    exact kstar_mul_le_kstar
  | group => exact (one_mul L).le

theorem all_closedUnder_closing (h : V auxiliary = bracket.language L) :
    (bracket.closing auxiliary).All V.ClosedUnder := by
  cases bracket with
  | optional =>
    have hempty : (1 : Language Char) ≤ V auxiliary := by
      rw [h]
      exact le_add_left le_rfl
    exact Steps.all_one.2 hempty
  | repetition =>
    have hempty : (1 : Language Char) ≤ V auxiliary := by
      rw [h]
      exact one_le_kstar
    exact Steps.all_one.2 hempty
  | group => exact Steps.all_none _

end Bracket

namespace Atom

section Exact

variable {V env : Valuation} {rule : String}

mutual

theorem sequence_flatten (hterminal : V.NamesTerminals) {opened : Nat} {after : List Reference}
    (atom : Atom) (hreferences : V.AgreesOn env (atom.references after))
    (h : V.NamesBrackets env rule opened atom.brackets) :
    V.sequence (atom.flatten Terminal.display rule opened).names = atom.language env := by
  cases atom with
  | reference name location =>
    rw [flatten, Valuation.sequence_cons, Valuation.sequence_nil, mul_one, language]
    exact hreferences ⟨name, location⟩ (List.mem_cons_self ..)
  | literal text =>
    by_cases hempty : text.isEmpty = true
    · rw [flatten, if_pos hempty, language_literal_of_isEmpty hempty, Valuation.sequence_nil]
    · rw [flatten, if_neg hempty]
      exact Valuation.sequence_ofTerminal hterminal (.literal text.toList)
  | range lo hi => exact Valuation.sequence_ofTerminal hterminal (.range lo hi)
  | nested bracket body =>
    by_cases hspliced : bracket.IsSpliced body
    · cases hspliced with | group alternative =>
      rw [flatten, language, languageAmong, languageAmong, add_zero]
      exact sequence_flattenIn hterminal alternative hreferences (by rwa [brackets] at h)
    · -- The bracket is the first of its own list, and nothing inside it matters here.
      rw [brackets_nested hspliced] at h
      rw [flatten_nested hspliced, Valuation.sequence_cons, Valuation.sequence_nil, mul_one]
      exact h 0 bracket body rfl

theorem sequence_flattenIn (hterminal : V.NamesTerminals) {opened : Nat} {after : List Reference}
    (atoms : List Atom) (hreferences : V.AgreesOn env (referencesIn after atoms))
    (h : V.NamesBrackets env rule opened (bracketsIn atoms)) :
    V.sequence (flattenIn Terminal.display rule opened atoms).names = languageIn env atoms := by
  cases atoms with
  | nil => rfl
  | cons atom atoms =>
    -- The brackets of the rest are numbered from where the first atom has left off.
    have hrest := h.right
    rw [← opened_flatten Terminal.display rule] at hrest
    rw [flattenIn, Valuation.sequence_append, sequence_flatten hterminal atom hreferences h.left,
      sequence_flattenIn hterminal atoms hreferences.after hrest, languageIn]

end

mutual

theorem all_closedUnder_flatten (hterminal : V.NamesTerminals) {opened : Nat}
    {after : List Reference} (atom : Atom)
    (hreferences : V.AgreesOn env (atom.references after))
    (h : V.NamesBrackets env rule opened atom.brackets) :
    (atom.flatten Terminal.display rule opened).steps.All V.ClosedUnder := by
  cases atom with
  | reference => exact Steps.all_none _
  | literal text =>
    rw [flatten]
    split
    · exact Steps.all_none _
    · exact Valuation.all_closedUnder_ofTerminal hterminal (.literal text.toList)
  | range lo hi => exact Valuation.all_closedUnder_ofTerminal hterminal (.range lo hi)
  | nested bracket body =>
    by_cases hspliced : bracket.IsSpliced body
    · cases hspliced with | group alternative =>
      rw [flatten]
      exact all_closedUnder_flattenIn hterminal alternative hreferences (by rwa [brackets] at h)
    · rw [brackets_nested hspliced] at h
      -- What the name of the bracket denotes is an upper bound for the rules inside and closing.
      have hauxiliary := h 0 bracket body rfl
      have hinner := all_closedUnder_flattenAmong hterminal body hreferences h.tail
        (bracket.lead_mul_le hauxiliary)
      rw [flatten_nested hspliced]
      refine Steps.all_append.2 ⟨Steps.all_append.2 ⟨?_, hinner⟩, ?_⟩
      · exact Steps.all_one.2 trivial
      · exact bracket.all_closedUnder_closing hauxiliary

theorem all_closedUnder_flattenIn (hterminal : V.NamesTerminals) {opened : Nat}
    {after : List Reference} (atoms : List Atom)
    (hreferences : V.AgreesOn env (referencesIn after atoms))
    (h : V.NamesBrackets env rule opened (bracketsIn atoms)) :
    (flattenIn Terminal.display rule opened atoms).steps.All V.ClosedUnder := by
  cases atoms with
  | nil => exact Steps.all_none _
  | cons atom atoms =>
    have hrest := h.right
    rw [← opened_flatten Terminal.display rule] at hrest
    rw [flattenIn]
    refine Steps.all_append.2 ⟨?_, ?_⟩
    · exact all_closedUnder_flatten hterminal atom hreferences h.left
    · exact all_closedUnder_flattenIn hterminal atoms hreferences.after hrest

theorem all_closedUnder_flattenAmong (hterminal : V.NamesTerminals) {head : String}
    {lead : List String} {opened : Nat} {after : List Reference} (body : List (List Atom))
    (hreferences : V.AgreesOn env (referencesAmong after body))
    (h : V.NamesBrackets env rule opened (bracketsAmong body))
    (hhead : V.sequence lead * languageAmong env body ≤ V head) :
    (flattenAmong Terminal.display rule head lead opened body).1.All V.ClosedUnder := by
  cases body with
  | nil => exact Steps.all_none _
  | cons alternative body =>
    have hrest := h.right
    rw [← opened_flattenIn Terminal.display rule] at hrest
    rw [languageAmong, mul_add, add_le_iff] at hhead
    have hrule :
        V.sequence (lead ++ (flattenIn Terminal.display rule opened alternative).names) ≤
          V head := by
      rw [Valuation.sequence_append, sequence_flattenIn hterminal alternative hreferences h.left]
      exact hhead.1
    rw [flattenAmong]
    refine Steps.all_append.2 ⟨Steps.all_append.2 ⟨?_, Steps.all_one.2 hrule⟩, ?_⟩
    · exact all_closedUnder_flattenIn hterminal alternative hreferences h.left
    · exact all_closedUnder_flattenAmong hterminal body hreferences.afterIn hrest hhead.2

end

end Exact

end Atom

end Earley
