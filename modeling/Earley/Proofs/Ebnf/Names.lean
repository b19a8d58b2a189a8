/-
  The names of symbols, and that none of them is taken for another.

  Declared names are identifiers: a letter or an underscore comes first, and no tilde or quote
  occurs (`isIdentifier_of_ofChars`). The name of a bracket starts like an identifier, but has a
  tilde behind the name of its rule, and what follows tells the kind and the number of the bracket
  (`auxiliary_inj`). The name of a terminal starts with a quote. So the three kinds of names keep
  apart.
-/
import Earley.Ebnf.Compile
import Earley.Proofs.Text.Quoted

namespace Earley

/-! ### Identifiers -/

/-- Tells that a name could be read as one identifier. -/
def IsIdentifier (name : String) : Prop :=
  ∃ c cs, name.toList = c :: cs ∧ isIdentifierStart c = true ∧
    ∀ d ∈ cs, isIdentifierRest d = true

namespace IsIdentifier

variable {name : String}

theorem all_rest (h : IsIdentifier name) : ∀ c ∈ name.toList, isIdentifierRest c = true := by
  obtain ⟨c, cs, hname, hstart, hrest⟩ := h
  rw [hname]
  exact List.forall_mem_cons.2 ⟨isIdentifierRest_of_isIdentifierStart hstart, hrest⟩

theorem tilde_notMem (h : IsIdentifier name) : '~' ∉ name.toList := by
  intro hmem
  exact absurd (h.all_rest '~' hmem) (by decide)

/-- An identifier, whatever follows it, does not start with a quote. -/
theorem append_ne_displayBy (h : IsIdentifier name) (rest : String) (visible : Char → Bool)
    (t : Terminal) : name ++ rest ≠ t.displayBy visible := by
  intro heq
  obtain ⟨c, cs, hname, hstart, -⟩ := h
  obtain ⟨q, ds, hdisplay⟩ := t.exists_toList_displayBy visible
  have hlist := congrArg String.toList heq
  rw [String.toList_append, hname, hdisplay] at hlist
  -- The first character is a quote, and that starts no identifier.
  rw [(List.cons.inj hlist).1] at hstart
  cases q <;> exact absurd hstart (by decide)

theorem ne_displayBy (h : IsIdentifier name) (visible : Char → Bool) (t : Terminal) :
    name ≠ t.displayBy visible := by
  have happend := h.append_ne_displayBy "" visible t
  rwa [String.append_empty] at happend

theorem ne_display (h : IsIdentifier name) (t : Terminal) : name ≠ t.display :=
  h.ne_displayBy isVisible t

end IsIdentifier

/-! ### Names of brackets -/

namespace Bracket

theorem toList_auxiliary (bracket : Bracket) (rule : String) (number : Nat) :
    (bracket.auxiliary rule number).toList =
      rule.toList ++ '~' :: (bracket.tag.toList ++ Nat.toDigits 10 number) := by
  simp [auxiliary, String.toList_append]

theorem tag_inj {bracket bracket' : Bracket} {r s : List Char}
    (h : bracket.tag.toList ++ r = bracket'.tag.toList ++ s) : bracket = bracket' ∧ r = s := by
  cases bracket <;> cases bracket' <;> simp_all [tag]

/-- The name of a bracket tells its kind, its rule and its number. -/
theorem auxiliary_inj {bracket bracket' : Bracket} {rule rule' : String} {number number' : Nat}
    (hrule : '~' ∉ rule.toList) (hrule' : '~' ∉ rule'.toList)
    (h : bracket.auxiliary rule number = bracket'.auxiliary rule' number') :
    bracket = bracket' ∧ rule = rule' ∧ number = number' := by
  have hlist := congrArg String.toList h
  rw [toList_auxiliary, toList_auxiliary] at hlist
  -- The rule ends at the first tilde, and the tag has a length of its own.
  obtain ⟨hname, htail⟩ := append_cons_inj_of_notMem hrule hrule' hlist
  obtain ⟨hbracket, hdigits⟩ := tag_inj htail
  exact ⟨hbracket, String.toList_injective hname,
    toDigits_injective (by decide) (by decide) hdigits⟩

theorem auxiliary_ne_displayBy {rule : String} (h : IsIdentifier rule) (bracket : Bracket)
    (number : Nat) (visible : Char → Bool) (t : Terminal) :
    bracket.auxiliary rule number ≠ t.displayBy visible := by
  unfold auxiliary
  rw [String.append_assoc, String.append_assoc]
  exact h.append_ne_displayBy _ visible t

theorem auxiliary_ne_display {rule : String} (h : IsIdentifier rule) (bracket : Bracket)
    (number : Nat) (t : Terminal) : bracket.auxiliary rule number ≠ t.display :=
  bracket.auxiliary_ne_displayBy h number isVisible t

theorem ne_auxiliary {name : String} (h : IsIdentifier name) (bracket : Bracket) (rule : String)
    (number : Nat) : name ≠ bracket.auxiliary rule number := by
  rintro rfl
  apply h.tilde_notMem
  rw [toList_auxiliary]
  exact List.mem_append_right _ (List.mem_cons_self ..)

end Bracket

/-! ### Identifiers in a grammar text -/

/-- Tells that a token, if it is an identifier, has the name of one. -/
def Token.WellNamed (token : Token) : Prop :=
  ∀ name, token = .identifier name → IsIdentifier name

theorem wellNamed_of_readWord {c : Char} {rest : List Char} {loc : Location} {reading : Reading}
    (h : readWord c rest loc = .ok reading) : reading.token.WellNamed := by
  intro name htoken
  unfold readWord at h
  split at h
  · split at h
    · cases h
    · cases h
      cases htoken
  · split at h
    · next hstart =>
      cases h
      cases htoken
      exact ⟨c, _, String.toList_ofList, hstart, List.all_eq_true.1 List.all_takeWhile⟩
    · cases h

theorem wellNamed_of_readToken {c : Char} {rest : List Char} {loc : Location} {reading : Reading}
    (h : readToken c rest loc = .ok reading) : reading.token.WellNamed := by
  unfold readToken at h
  split at h
  case h_12 | h_14 => cases h
  case h_15 => exact wellNamed_of_readWord h
  -- The signs are no identifiers.
  all_goals
    cases h
    intro name htoken
    cases htoken

namespace TokenStream

theorem wellNamed_of_next {s s' : TokenStream} {lexeme : Lexeme}
    (h : s.next = (some (.ok lexeme), s')) : lexeme.token.WellNamed := by
  unfold next at h
  split at h
  · cases h
  · split at h
    · cases h
    · cases h
    · split at h
      · cases h
      · next hread =>
        cases h
        exact wellNamed_of_readToken hread

theorem wellNamed_collectFrom {taken : List Lexeme} {s : TokenStream}
    (h : ∀ lexeme ∈ taken, lexeme.token.WellNamed) :
    ∀ lexeme ∈ (s.collectFrom taken).lexemes, lexeme.token.WellNamed := by
  fun_induction collectFrom taken s with
  | case1 | case2 => simpa using h
  | case3 _ _ lexeme _ hnext _ ih =>
    exact ih (List.forall_mem_cons.2 ⟨wellNamed_of_next hnext, h⟩)

end TokenStream

theorem wellNamed_of_tokenize {text : List Char} {lexemes : List Lexeme}
    (h : tokenize text = .ok lexemes) : ∀ lexeme ∈ lexemes, lexeme.token.WellNamed := by
  simp only [tokenize] at h
  split at h
  · cases h
  · cases h
    exact TokenStream.wellNamed_collectFrom (by simp)

/-! ### Declared names -/

namespace Reader

/-- Tells that the names of what is declared, and is being declared, are identifiers. -/
def WellNamed (r : Reader) : Prop :=
  (∀ d ∈ r.declared, IsIdentifier d.name) ∧
    match r.place with
    | .outside => True
    | .named name _ | .inside name _ _ _ | .bounded name _ _ _ => IsIdentifier name

theorem wellNamed_stepInside {declared : List Declaration} {name : String} {location : Location}
    {body : Body} {lexeme : Lexeme} {r : Reader} (hdeclared : ∀ d ∈ declared, IsIdentifier d.name)
    (hname : IsIdentifier name)
    (h : stepInside declared name location body lexeme = .ok r) : r.WellNamed := by
  unfold stepInside at h
  split at h
  case h_7 =>
    -- The semicolon ends the declaration, unless brackets are open.
    split at h
    · split at h
      · cases h
        exact ⟨List.forall_mem_cons.2 ⟨hname, hdeclared⟩, trivial⟩
      · cases h
        exact ⟨hdeclared, hname⟩
    · cases h
  all_goals
    cases h
    exact ⟨hdeclared, hname⟩

theorem wellNamed_step {r r' : Reader} {lexeme : Lexeme} (hr : r.WellNamed)
    (hlexeme : lexeme.token.WellNamed) (h : r.step lexeme = .ok r') : r'.WellNamed := by
  obtain ⟨hdeclared, hplace⟩ := hr
  unfold step at h
  split at h <;> simp only [*] at hplace
  case h_1 htoken =>
    -- The name of a declaration is taken from an identifier here, and only here.
    cases h
    exact ⟨hdeclared, hlexeme _ htoken⟩
  case h_2 | h_4 | h_8 => cases h
  case h_3 | h_5 =>
    cases h
    exact ⟨hdeclared, hplace⟩
  case h_6 => exact wellNamed_stepInside hdeclared hplace h
  case h_7 =>
    split at h
    · cases h
    · cases h
      exact ⟨hdeclared, hplace⟩

theorem wellNamed_foldlM {lexemes : List Lexeme} {r r' : Reader} (hr : r.WellNamed)
    (hlexemes : ∀ lexeme ∈ lexemes, lexeme.token.WellNamed)
    (h : lexemes.foldlM step r = .ok r') : r'.WellNamed := by
  induction lexemes generalizing r with
  | nil =>
    cases h
    exact hr
  | cons lexeme lexemes ih =>
    obtain ⟨hlexeme, hrest⟩ := List.forall_mem_cons.1 hlexemes
    rw [List.foldlM_cons] at h
    cases hstep : r.step lexeme with
    | error e =>
      rw [hstep] at h
      cases h
    | ok next =>
      rw [hstep] at h
      exact ih (wellNamed_step hr hlexeme hstep) hrest h

end Reader

/-- Every declared name is an identifier. -/
theorem isIdentifier_of_ofChars {text : List Char} {declarations : List Declaration}
    (h : Declaration.ofChars text = .ok declarations) :
    ∀ d ∈ declarations, IsIdentifier d.name := by
  unfold Declaration.ofChars at h
  split at h
  · cases h
  · next lexemes htokens =>
    unfold Declaration.ofLexemes at h
    cases hread : lexemes.foldlM Reader.step Reader.start with
    | error e =>
      rw [hread] at h
      cases h
    | ok r =>
      have hr : r.WellNamed := Reader.wellNamed_foldlM ⟨by simp [Reader.start], trivial⟩
        (wellNamed_of_tokenize htokens) hread
      rw [hread] at h
      change r.finish _ = _ at h
      unfold Reader.finish at h
      split at h
      · cases h
        intro d hd
        exact hr.1 d (List.mem_reverse.1 hd)
      all_goals cases h

end Earley
