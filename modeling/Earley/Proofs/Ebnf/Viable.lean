/-
  The beginnings of token sequences that follow the rules.

  Tokens are viable if some further tokens complete them to declarations, where it is disregarded
  what literals hold. Whether they are can be told by going through them once: an `Outline` keeps
  what has to be remembered of the tokens before, and `Outline.Steps` says which token may follow.

  Tokens that form a phrase are gone through (`Forms.follows`). Backwards, from each outline there
  are tokens that complete the declarations (`exists_completes`), and a step puts its token in front
  of them (`Steps.completes`). So the tokens that can be gone through are just those that are viable
  (`viable_iff_exists_run`). An outline has at most one step with a token, so tokens stop being
  viable where no step is left.
-/
import Earley.Proofs.Ebnf.Writing

namespace Earley

/-- Any two literals, as the bounds of a range. -/
def AnyBounds (_ _ : String) : Prop := True

/-- Tells that tokens are the beginning of tokens that form declarations, whatever the literals
hold. -/
def Viable (tokens : List Token) : Prop :=
  ∃ rest, Forms AnyBounds .declarations (tokens ++ rest)

theorem Viable.of_append {tokens tokens' : List Token} (h : Viable (tokens ++ tokens')) :
    Viable tokens := by
  obtain ⟨rest, hrest⟩ := h
  exact ⟨tokens' ++ rest, by rwa [← List.append_assoc]⟩

theorem Viable.of_take_le {tokens : List Token} {m n : Nat} (hle : m ≤ n)
    (h : Viable (tokens.take n)) : Viable (tokens.take m) := by
  have hprefix : tokens.take m <+: tokens.take n := List.take_prefix_take_left hle
  obtain ⟨rest, hrest⟩ := hprefix
  rw [← hrest] at h
  exact h.of_append

/-! ### Going through tokens -/

/-- What has to be remembered of the tokens before, to tell which token may follow: whether a
declaration has begun, the brackets that are open, the innermost first, and whether the last token
may be the lower bound of a range or is the dots of one. -/
inductive Outline
  | outside
  | named
  | inside (enclosing : List Bracket) (held : Bool)
  | bounded (enclosing : List Bracket)

namespace Outline

/-- Tells which tokens may follow, and what is to be remembered then. -/
inductive Steps : Outline → Token → Outline → Prop
  | name (name : String) : Steps .outside (.identifier name) .named
  | define : Steps .named .define (.inside [] false)
  | reference (name : String) {enclosing : List Bracket} {held : Bool} :
      Steps (.inside enclosing held) (.identifier name) (.inside enclosing false)
  | literal (text : String) {enclosing : List Bracket} {held : Bool} :
      Steps (.inside enclosing held) (.literal text) (.inside enclosing true)
  | ellipsis {enclosing : List Bracket} :
      Steps (.inside enclosing true) .ellipsis (.bounded enclosing)
  | bound (text : String) {enclosing : List Bracket} :
      Steps (.bounded enclosing) (.literal text) (.inside enclosing false)
  | bar {enclosing : List Bracket} {held : Bool} :
      Steps (.inside enclosing held) .bar (.inside enclosing false)
  | enter (bracket : Bracket) {enclosing : List Bracket} {held : Bool} :
      Steps (.inside enclosing held) bracket.opener (.inside (bracket :: enclosing) false)
  | leave (bracket : Bracket) {enclosing : List Bracket} {held : Bool} :
      Steps (.inside (bracket :: enclosing) held) bracket.closer (.inside enclosing false)
  | semicolon {held : Bool} : Steps (.inside [] held) .semicolon .outside

/-- Tells that tokens may follow one after another. -/
inductive Run : Outline → List Token → Outline → Prop
  | nil {s : Outline} : Run s [] s
  | cons {s next s' : Outline} {token : Token} {tokens : List Token} (h : Steps s token next)
      (hrest : Run next tokens s') : Run s (token :: tokens) s'

variable {s next s' : Outline} {token : Token} {tokens tokens' : List Token}
  {enclosing : List Bracket}

theorem Steps.run (h : Steps s token s') : Run s [token] s' := .cons h .nil

theorem run_append_iff :
    Run s (tokens ++ tokens') s' ↔ ∃ next, Run s tokens next ∧ Run next tokens' s' := by
  constructor
  · intro h
    induction tokens generalizing s with
    | nil => exact ⟨s, .nil, h⟩
    | cons token tokens ih =>
      cases h with
      | cons hstep hrest =>
        obtain ⟨next, hfirst, hlast⟩ := ih hrest
        exact ⟨next, .cons hstep hfirst, hlast⟩
  · rintro ⟨next, hfirst, hlast⟩
    induction hfirst with
    | nil => exact hlast
    | cons hstep _ ih => exact .cons hstep (ih hlast)

theorem Run.append (h : Run s tokens next) (h' : Run next tokens' s') :
    Run s (tokens ++ tokens') s' :=
  run_append_iff.2 ⟨next, h, h'⟩

/-- A token leads to one outline at most. -/
theorem Steps.unique (h : Steps s token next) (h' : Steps s token s') : next = s' := by
  generalize htoken : token = token' at h'
  -- No two steps are with the same token, for no bracket opens or closes as another one does.
  cases h <;> cases h' <;> grind [Bracket.opener, Bracket.closer, cases Bracket]

theorem Run.unique (h : Run s tokens next) (h' : Run s tokens s') : next = s' := by
  induction h with
  | nil =>
    cases h'
    rfl
  | cons hstep _ ih =>
    cases h' with
    | cons hstep' hrest =>
      obtain rfl := hstep.unique hstep'
      exact ih hrest

end Outline

/-! ### Tokens that form a phrase are gone through -/

namespace Outline

/-- Tells that tokens may follow in a body, with the same brackets open in the end. -/
def Passes (tokens : List Token) : Prop :=
  ∀ enclosing held, ∃ held', Run (.inside enclosing held) tokens (.inside enclosing held')

theorem Passes.append (h : Passes tokens) (h' : Passes tokens') : Passes (tokens ++ tokens') := by
  intro enclosing held
  obtain ⟨held', hrun⟩ := h enclosing held
  obtain ⟨held'', hrun'⟩ := h' enclosing held'
  exact ⟨held'', hrun.append hrun'⟩

theorem passes_bar : Passes [.bar] :=
  fun _ _ => ⟨false, Steps.bar.run⟩

theorem Passes.nested (h : Passes tokens) (bracket : Bracket) :
    Passes (bracket.opener :: (tokens ++ [bracket.closer])) := by
  intro enclosing held
  obtain ⟨held', hrun⟩ := h (bracket :: enclosing) false
  exact ⟨false, .cons (.enter bracket) (hrun.append (Steps.leave bracket).run)⟩

end Outline

/-- Tells that tokens may follow where a phrase of some kind may stand. -/
def Phrase.Follows : Phrase → List Token → Prop
  | .atom, tokens | .sequence, tokens | .alternatives, tokens => Outline.Passes tokens
  | .declaration, tokens | .declarations, tokens => Outline.Run .outside tokens .outside

theorem Forms.follows {bounds : String → String → Prop} {phrase : Phrase} {tokens : List Token}
    (h : Forms bounds phrase tokens) : phrase.Follows tokens := by
  induction h with
  | reference name => exact fun _ _ => ⟨false, (Outline.Steps.reference name).run⟩
  | literal text => exact fun _ _ => ⟨true, (Outline.Steps.literal text).run⟩
  | @range lo hi _ =>
    exact fun _ _ => ⟨false, .cons (.literal lo) (.cons .ellipsis (Outline.Steps.bound hi).run)⟩
  | nested bracket _ ih => exact ih.nested bracket
  | empty => exact fun _ held => ⟨held, .nil⟩
  | next _ _ hfirst hrest => exact hfirst.append hrest
  | single _ ih => exact ih
  | bar _ _ hfirst hrest => exact hfirst.append (Outline.passes_bar.append hrest)
  | declaration name _ ih =>
    obtain ⟨held, hrun⟩ := ih [] false
    exact .cons (.name name) (.cons .define (hrun.append Outline.Steps.semicolon.run))
  | done => exact .nil
  | another _ _ hfirst hrest => exact hfirst.append hrest

/-! ### What can be gone through can be completed -/

section Completion

variable {bounds : String → String → Prop} {first tokens : List Token}

theorem Forms.cons_alternatives (hfirst : Forms bounds .atom first)
    (h : Forms bounds .alternatives tokens) : Forms bounds .alternatives (first ++ tokens) := by
  cases h with
  | single h => exact .single (.next hfirst h)
  | bar hsequence hrest =>
    rw [← List.append_assoc]
    exact .bar (.next hfirst hsequence) hrest

theorem Forms.bar_alternatives (h : Forms bounds .alternatives tokens) :
    Forms bounds .alternatives (.bar :: tokens) :=
  .bar .empty h

theorem Forms.empty_alternatives : Forms bounds .alternatives [] :=
  .single .empty

end Completion

/-- Tells that tokens go on with a body in which brackets are open, close all of them, and end the
declaration and the text. -/
def CompletesBody : List Bracket → List Token → Prop
  | [], rest => ∃ body after, rest = body ++ .semicolon :: after ∧
      Forms AnyBounds .alternatives body ∧ Forms AnyBounds .declarations after
  | bracket :: enclosing, rest => ∃ body after, rest = body ++ bracket.closer :: after ∧
      Forms AnyBounds .alternatives body ∧ CompletesBody enclosing after

namespace CompletesBody

variable {first rest : List Token} {enclosing : List Bracket}

theorem atom (hfirst : Forms AnyBounds .atom first) (h : CompletesBody enclosing rest) :
    CompletesBody enclosing (first ++ rest) := by
  cases enclosing <;>
  · obtain ⟨body, after, rfl, hbody, hafter⟩ := h
    exact ⟨first ++ body, after, (List.append_assoc ..).symm, hfirst.cons_alternatives hbody,
      hafter⟩

theorem bar (h : CompletesBody enclosing rest) : CompletesBody enclosing (.bar :: rest) := by
  cases enclosing <;>
  · obtain ⟨body, after, rfl, hbody, hafter⟩ := h
    exact ⟨.bar :: body, after, rfl, hbody.bar_alternatives, hafter⟩

/-- What closes a bracket completes an atom of the body outside. -/
theorem enter {bracket : Bracket} (h : CompletesBody (bracket :: enclosing) rest) :
    CompletesBody enclosing (bracket.opener :: rest) := by
  obtain ⟨body, after, rfl, hbody, hafter⟩ := h
  have hatom := hafter.atom (.nested bracket hbody)
  rwa [List.cons_append, List.append_assoc] at hatom

theorem leave (h : CompletesBody enclosing rest) (bracket : Bracket) :
    CompletesBody (bracket :: enclosing) (bracket.closer :: rest) :=
  ⟨[], rest, rfl, .empty_alternatives, h⟩

theorem semicolon (h : Forms AnyBounds .declarations rest) :
    CompletesBody [] (.semicolon :: rest) :=
  ⟨[], rest, rfl, .empty_alternatives, h⟩

theorem declaration (h : CompletesBody [] rest) (name : String) :
    Forms AnyBounds .declarations (.identifier name :: .define :: rest) := by
  obtain ⟨body, after, rfl, hbody, hafter⟩ := h
  have hdeclarations := (Forms.declaration name hbody).another hafter
  rwa [List.cons_append, List.cons_append, List.append_assoc] at hdeclarations

theorem range (h : CompletesBody enclosing rest) (lo hi : String) :
    CompletesBody enclosing (.literal lo :: .ellipsis :: .literal hi :: rest) :=
  h.atom (.range trivial)

end CompletesBody

theorem exists_completesBody (enclosing : List Bracket) : ∃ rest, CompletesBody enclosing rest := by
  induction enclosing with
  | nil => exact ⟨_, .semicolon .done⟩
  | cons bracket enclosing ih =>
    obtain ⟨rest, hrest⟩ := ih
    exact ⟨_, hrest.leave bracket⟩

namespace Outline

/-- Tells that tokens complete what an outline is about. -/
def Completes : Outline → List Token → Prop
  | .outside, rest => Forms AnyBounds .declarations rest
  | .named, rest => ∃ after, rest = .define :: after ∧ CompletesBody [] after
  | .inside enclosing false, rest => CompletesBody enclosing rest
  | .inside enclosing true, rest => CompletesBody enclosing rest ∨
      ∃ hi after, rest = .ellipsis :: .literal hi :: after ∧ CompletesBody enclosing after
  | .bounded enclosing, rest => ∃ hi after, rest = .literal hi :: after ∧
      CompletesBody enclosing after

variable {s s' : Outline} {token : Token} {tokens rest : List Token} {enclosing : List Bracket}

/-- The literal that is held need not be a lower bound. -/
theorem completes_inside (h : CompletesBody enclosing rest) (held : Bool) :
    (inside enclosing held).Completes rest := by
  cases held with
  | false => exact h
  | true => exact Or.inl h

theorem exists_completes (s : Outline) : ∃ rest, s.Completes rest := by
  cases s with
  | outside => exact ⟨[], .done⟩
  | named =>
    obtain ⟨rest, hrest⟩ := exists_completesBody []
    exact ⟨_, rest, rfl, hrest⟩
  | inside enclosing held =>
    obtain ⟨rest, hrest⟩ := exists_completesBody enclosing
    exact ⟨rest, completes_inside hrest held⟩
  | bounded enclosing =>
    obtain ⟨rest, hrest⟩ := exists_completesBody enclosing
    exact ⟨_, "", rest, rfl, hrest⟩

/-- A step puts its token in front of what completes the rest. -/
theorem Steps.completes (h : Steps s token s') (hrest : s'.Completes rest) :
    s.Completes (token :: rest) := by
  cases h with
  | name name =>
    obtain ⟨after, rfl, hafter⟩ := hrest
    exact hafter.declaration name
  | define => exact ⟨rest, rfl, hrest⟩
  | reference name => exact completes_inside (CompletesBody.atom (.reference name) hrest) _
  | literal lo =>
    -- What follows the literal either leaves it alone or makes it a lower bound.
    rcases hrest with hrest | ⟨hi, after, rfl, hafter⟩
    · exact completes_inside (hrest.atom (.literal lo)) _
    · exact completes_inside (hafter.range lo hi) _
  | ellipsis =>
    obtain ⟨hi, after, rfl, hafter⟩ := hrest
    exact Or.inr ⟨hi, after, rfl, hafter⟩
  | bound hi => exact ⟨hi, rest, rfl, hrest⟩
  | bar => exact completes_inside (CompletesBody.bar hrest) _
  | enter bracket => exact completes_inside (CompletesBody.enter hrest) _
  | leave bracket => exact completes_inside (CompletesBody.leave hrest bracket) _
  | semicolon => exact completes_inside (CompletesBody.semicolon hrest) _

theorem Run.completes (h : Run s tokens s') (hrest : s'.Completes rest) :
    s.Completes (tokens ++ rest) := by
  induction h with
  | nil => exact hrest
  | cons hstep _ ih => exact hstep.completes (ih hrest)

end Outline

/-- Tokens are viable if they can be gone through. -/
theorem viable_iff_exists_run {tokens : List Token} :
    Viable tokens ↔ ∃ s, Outline.Run .outside tokens s := by
  constructor
  · rintro ⟨rest, hforms⟩
    obtain ⟨s, hrun, -⟩ := Outline.run_append_iff.1 hforms.follows
    exact ⟨s, hrun⟩
  · rintro ⟨s, hrun⟩
    obtain ⟨rest, hrest⟩ := s.exists_completes
    exact ⟨rest, hrun.completes hrest⟩

/-- One more token keeps tokens viable just if their outline has a step with it. -/
theorem viable_concat_iff {tokens : List Token} {s : Outline} (h : Outline.Run .outside tokens s)
    (token : Token) : Viable (tokens ++ [token]) ↔ ∃ s', Outline.Steps s token s' := by
  rw [viable_iff_exists_run]
  constructor
  · rintro ⟨s', hrun⟩
    obtain ⟨next, hfirst, hlast⟩ := Outline.run_append_iff.1 hrun
    obtain rfl := h.unique hfirst
    cases hlast with
    | cons hstep _ => exact ⟨_, hstep⟩
  · rintro ⟨s', hstep⟩
    exact ⟨s', h.append hstep.run⟩

end Earley
