/-
  No name stands for two symbols.

  Declared names, brackets and terminals share one name space, and the steps that declarations are
  flattened to are quiet: a step that finds its name taken does nothing. If two symbols had one
  name, the second would be lost without a message. They never have
  (`desugaring_never_conflates`). The forms of terminals differ from each other and from all other
  names, a declared name is registered once, and so is a bracket, since its name tells its rule and
  its number. So the only step that can find its name taken is one for a terminal, and what it finds
  is this terminal.

  The form of a terminal depends on which characters are visible, and the result does not. So the
  flattening is taken here with the forms that go with any choice of them
  (`Declaration.allStepsBy`), of which `Declaration.allSteps` is a case.
-/
import Earley.Proofs.Ebnf.Outcome
import Earley.Proofs.Ebnf.Priority

namespace Earley

/-! ### Steps that keep symbols -/

namespace Step

variable {form : Terminal → String} {steps steps' : List Step} {name : String}

open Builder in
/-- Tells that steps, one after another, never take one symbol for another. -/
structure NeverConflate (steps : List Step) : Prop where
  /-- The name of a non-terminal is free, and then stands for the new non-terminal. -/
  nonterm : ∀ before after quiet name, steps = before ++ .nonterm quiet name :: after →
    (run before).contains name = false ∧
      (run (before ++ [.nonterm quiet name])).symbols[name]? =
        some (.nonterm (run before).nonterms.size)
  /-- The name of a terminal is free or stands for this very terminal, and then stands for it. -/
  terminal : ∀ before after quiet name t, steps = before ++ .terminal quiet name t :: after →
    (∀ symbol, (run before).symbols[name]? = some symbol → symbol = .terminal t) ∧
      (run (before ++ [.terminal quiet name t])).symbols[name]? = some (.terminal t)

theorem isVacuous_of_supported {earlier : List Step} (h : Supported earlier steps) {quiet : Bool}
    {t : Terminal} (hmem : terminal quiet name t ∈ steps) : t.isVacuous = false := by
  obtain ⟨before, after, rfl⟩ := List.append_of_mem hmem
  obtain ⟨-, hstep, -⟩ := supported_append.1 h
  exact hstep.2

end Step

namespace Builder

variable {b : Builder} {form : Terminal → String} {steps : List Step} {quiet : Bool}
  {name : String} {t : Terminal} {symbol : Symbol}

theorem symbols_addNonterm_self (hfree : b.contains name = false) :
    (b.addNonterm quiet name).symbols[name]? = some (.nonterm b.nonterms.size) := by
  rw [addNonterm, hfree]
  exact Std.HashMap.getElem?_insert_self

/-- A terminal has its name afterwards, unless the name stands for another symbol. -/
theorem symbols_addTerminal_self (ht : t.isVacuous = false)
    (hsame : ∀ symbol, b.symbols[name]? = some symbol → symbol = .terminal t) :
    (b.addTerminal quiet name t).symbols[name]? = some (.terminal t) := by
  rw [addTerminal]
  cases hknown : b.contains name with
  | false =>
    simp only [ht, Bool.false_eq_true, if_false]
    exact Std.HashMap.getElem?_insert_self
  | true =>
    -- The name is taken, so the table stays as it is.
    obtain ⟨symbol, hsymbol⟩ := contains_eq_true_iff.1 hknown
    rw [hsame symbol hsymbol] at hsymbol
    cases quiet with
    | true => exact hsymbol
    | false => exact hsymbol

/-- A name is free, if it is not that of a terminal and no step for a non-terminal has it. -/
theorem contains_run_eq_false (hapart : ∀ step ∈ steps, step.KeepsApart form)
    (hname : ∀ t, name ≠ form t) (hnew : name ∉ Step.nonterms steps) :
    (run steps).contains name = false := by
  rw [← Bool.not_eq_true, contains_run_iff hapart hname, toList_nonterms_run hapart,
    List.mem_eraseDups]
  exact hnew

/-- What the name of a terminal stands for is this terminal. -/
theorem eq_terminal_of_symbols_run (hform : Function.Injective form)
    (hapart : ∀ step ∈ steps, step.KeepsApart form)
    (hsymbol : (run steps).symbols[form t]? = some symbol) : symbol = .terminal t := by
  cases symbol with
  | nonterm id =>
    obtain ⟨_, hmem⟩ := exists_step_of_symbols_nonterm hsymbol
    exact absurd rfl (hapart _ hmem t)
  | terminal t' =>
    obtain ⟨_, hmem⟩ := exists_step_of_symbols_terminal hsymbol
    rw [hform (hapart _ hmem)]

end Builder

/-- Steps that support each other do not take one symbol for another, if terminals have names of
their own and no non-terminal is registered twice. -/
theorem Step.neverConflate_of_keepsApart {form : Terminal → String} {steps : List Step}
    (hform : Function.Injective form) (hapart : ∀ step ∈ steps, step.KeepsApart form)
    (hsupported : Supported [] steps) (hnodup : (nonterms steps).Nodup) : NeverConflate steps where
  nonterm before after quiet name hsteps := by
    rw [hsteps] at hapart hnodup
    obtain ⟨hbefore, hrest⟩ := List.forall_mem_append.1 hapart
    obtain ⟨hname, -⟩ := List.forall_mem_cons.1 hrest
    have hmiddle : (nonterms before ++ name :: nonterms after).Nodup := by
      rwa [nonterms_append] at hnodup
    obtain ⟨hnew, -⟩ := List.nodup_cons.1 (List.nodup_middle.1 hmiddle)
    have hfree := Builder.contains_run_eq_false hbefore hname
      fun hmem => hnew (List.mem_append_left _ hmem)
    rw [Builder.run_concat]
    exact ⟨hfree, Builder.symbols_addNonterm_self hfree⟩
  terminal before after quiet name t hsteps := by
    have hmem : terminal quiet name t ∈ steps := by
      rw [hsteps]
      exact List.mem_append_right _ List.mem_cons_self
    have hvacuous := isVacuous_of_supported hsupported hmem
    obtain rfl : name = form t := hapart _ hmem
    rw [hsteps] at hapart
    obtain ⟨hbefore, -⟩ := List.forall_mem_append.1 hapart
    have hsame (symbol : Symbol) (hsymbol : (Builder.run before).symbols[form t]? = some symbol) :
        symbol = .terminal t :=
      Builder.eq_terminal_of_symbols_run hform hbefore hsymbol
    rw [Builder.run_concat]
    exact ⟨hsame, Builder.symbols_addTerminal_self hvacuous hsame⟩

/-! ### The names of a text -/

section Text

variable {text : List Char} {start : String} {ds merged : List Declaration}

open Declaration in
/-- The steps for a text that passes the checks never take one symbol for another, whichever
characters are visible. -/
theorem Declaration.neverConflate_allStepsBy (hread : ofChars text = .ok ds)
    (hmerge : merge ds = .ok merged) (hcheck : check merged start (.endOf text) = .ok ())
    (visible : Char → Bool) :
    Step.NeverConflate (allStepsBy (Terminal.displayBy visible) merged) := by
  have hidentifier := isIdentifier_of_merge hread hmerge
  have hwritable := writable_merge hmerge (writable_of_ofChars hread)
  obtain ⟨hreferences, -⟩ := check_eq_ok_iff.1 hcheck
  refine Step.neverConflate_of_keepsApart (Terminal.displayBy_injective visible)
    (keepsApart_allStepsBy visible hidentifier) (supported_allStepsBy hwritable hreferences) ?_
  rw [nonterms_allStepsBy]
  exact nodup_names hidentifier (nodup_merge hmerge)

end Text

open Declaration in
/-- **Flattening never takes one symbol for another**, whichever characters are visible between
quotes. Distinct terminals have distinct forms, and no form is an identifier or the name of a
bracket in a rule that is called by one. In the steps for a text that passes the checks, a
non-terminal is always registered under a free name, and where a terminal is registered under a name
that is taken, the name stands for this very terminal. So no step that finds its name taken loses a
symbol. With the characters that are visible in messages, the forms and the steps are those of a
compilation. -/
theorem desugaring_never_conflates (visible : Char → Bool) :
    Function.Injective (Terminal.displayBy visible) ∧
    (∀ t name, IsIdentifier name → Terminal.displayBy visible t ≠ name) ∧
    (∀ t bracket rule number, IsIdentifier rule →
      Terminal.displayBy visible t ≠ Bracket.auxiliary bracket rule number) ∧
    (∀ text start ds merged, ofChars text = .ok ds → merge ds = .ok merged →
      check merged start (.endOf text) = .ok () →
        Step.NeverConflate (allStepsBy (Terminal.displayBy visible) merged)) ∧
    Terminal.displayBy isVisible = Terminal.display ∧
    ∀ merged, allStepsBy (Terminal.displayBy isVisible) merged = allSteps merged := by
  refine ⟨Terminal.displayBy_injective visible, ?_, ?_, ?_, rfl, fun _ => rfl⟩
  · intro t name hname
    exact (hname.ne_displayBy visible t).symm
  · intro t bracket rule number hrule
    exact (bracket.auxiliary_ne_displayBy hrule number visible t).symm
  · intro text start ds merged hread hmerge hcheck
    exact neverConflate_allStepsBy hread hmerge hcheck visible

/-! ### A literal that recurs -/

/-- A text with one literal in a rule and again in a bracket of the rule. -/
def recurringText : List Char := "s = \"a\" \x7b \"a\" \x7d ;".toList

/-- The tokens of `recurringText`. -/
def recurringLexemes : List Lexeme :=
  [⟨.identifier "s", ⟨0, 1, 1⟩⟩, ⟨.define, ⟨2, 1, 3⟩⟩, ⟨.literal "a", ⟨4, 1, 5⟩⟩,
    ⟨.openBrace, ⟨8, 1, 9⟩⟩, ⟨.literal "a", ⟨10, 1, 11⟩⟩, ⟨.closeBrace, ⟨14, 1, 15⟩⟩,
    ⟨.semicolon, ⟨16, 1, 17⟩⟩]

/-- The declaration in `recurringText`. -/
def recurringDeclaration : Declaration where
  name := "s"
  location := ⟨0, 1, 1⟩
  body := [[.literal "a", .nested .repetition [[.literal "a"]]]]

/-- The form of the literal in `recurringText`, where no character is visible. -/
def hiddenForm : String := "\"\\u\x7b61\x7d\""

/-- The steps for `recurringText` up to the second one for the literal, where no character is
visible. -/
def recurringSteps : List Step :=
  [.nonterm true "s", .terminal true hiddenForm (.literal ['a']), .nonterm true "s~rep1"]

theorem ofChars_recurringText : Declaration.ofChars recurringText = .ok [recurringDeclaration] := by
  have htokens : tokenize recurringText = .ok recurringLexemes := by decide +kernel
  rw [Declaration.ofChars, htokens]
  rfl

theorem contains_run_recurringSteps :
    (Builder.run recurringSteps).contains hiddenForm = true := by
  cbv

/-- Where no character is visible, the literal is found under its name when it recurs. -/
theorem desugaring_never_conflates_recurring :
    IsIdentifier "s" ∧ Declaration.ofChars recurringText = .ok [recurringDeclaration] ∧
    Declaration.merge [recurringDeclaration] = .ok [recurringDeclaration] ∧
    Declaration.check [recurringDeclaration] "s" (.endOf recurringText) = .ok () ∧
    Terminal.displayBy (fun _ => false) (.literal ['a']) ≠ "s" ∧
    Terminal.displayBy (fun _ => false) (.literal ['a']) ≠ Bracket.repetition.auxiliary "s" 1 ∧
    ∃ after, Declaration.allStepsBy (Terminal.displayBy fun _ => false) [recurringDeclaration] =
        recurringSteps ++ .terminal true hiddenForm (.literal ['a']) :: after ∧
      (Builder.run recurringSteps).symbols[hiddenForm]? = some (.terminal (.literal ['a'])) := by
  obtain ⟨-, hidentifier, hbracket, hnever, -⟩ := desugaring_never_conflates fun _ => false
  have hname : IsIdentifier "s" := ⟨'s', [], by decide, by decide, by simp⟩
  have hmerge : Declaration.merge [recurringDeclaration] = .ok [recurringDeclaration] := rfl
  have hcheck : Declaration.check [recurringDeclaration] "s" (.endOf recurringText) = .ok () :=
    Declaration.check_eq_ok_iff.2 (by decide)
  have hsteps : Declaration.allStepsBy (Terminal.displayBy fun _ => false) [recurringDeclaration] =
      recurringSteps ++ .terminal true hiddenForm (.literal ['a']) ::
        [.rule true "s~rep1" ["s~rep1", hiddenForm], .rule true "s~rep1" [],
          .rule true "s" [hiddenForm, "s~rep1"]] := by
    decide +kernel
  have hkept := hnever recurringText "s" _ _ ofChars_recurringText hmerge hcheck
  obtain ⟨hsame, -⟩ := hkept.terminal _ _ _ _ _ hsteps
  -- The name is taken when the literal recurs, and the theorem tells what it stands for.
  obtain ⟨symbol, hsymbol⟩ := Builder.contains_eq_true_iff.1 contains_run_recurringSteps
  rw [hsame symbol hsymbol] at hsymbol
  exact ⟨hname, ofChars_recurringText, hmerge, hcheck, hidentifier _ "s" hname,
    hbracket _ .repetition "s" 1 hname, _, hsteps, hsymbol⟩

end Earley
