/-
  Errors of syntax point at the first token that cannot be right.

  The reader does what its outline does (`Reader.Moves.outline`): a step of the outline is a move of
  the reader, unless it completes a range with bounds that do not fit (`Reader.moves_of_steps`). So
  while the reader goes on, the tokens are viable and their ranges are good
  (`Reader.Run.not_badRangeAt`), and where it stops, either no viable tokens go on with this one, or
  a range is complete and is the first bad one. `syntax_error_at_first_hopeless` says where the
  error is, by what is true of the tokens alone.
-/
import Earley.Proofs.Ebnf.Outcome
import Earley.Proofs.Ebnf.Viable
import Mathlib.Order.Bounds.Basic

namespace Earley

/-! ### Ranges -/

/-- Tells that a range with bounds that do not fit begins at an index. -/
def BadRangeAt (tokens : List Token) (i : Nat) : Prop :=
  ∃ before lo hi after, tokens = before ++ .literal lo :: .ellipsis :: .literal hi :: after ∧
    before.length = i ∧ ¬BoundsRange lo hi

/-- A range that ends before some index is one of the tokens before that. -/
theorem BadRangeAt.take {tokens : List Token} {i k : Nat} (h : BadRangeAt tokens i)
    (hk : i + 2 < k) : BadRangeAt (tokens.take k) i := by
  obtain ⟨before, lo, hi, after, rfl, rfl, hbad⟩ := h
  obtain ⟨n, rfl⟩ : ∃ n, k = before.length + (n + 3) := ⟨k - before.length - 3, by omega⟩
  refine ⟨before, lo, hi, after.take n, ?_, rfl, hbad⟩
  rw [List.take_length_add_append]
  rfl

/-! ### The outline of a reading -/

namespace Reader

/-- What a place says about the tokens that may follow. -/
def Place.outline : Place → Outline
  | .outside => .outside
  | .named _ _ => .named
  | .inside _ _ body held => .inside (body.enclosing.map Prod.fst) held.isSome
  | .bounded _ _ body _ => .bounded (body.enclosing.map Prod.fst)

variable {r r' : Reader} {lexeme : Lexeme} {lexemes : List Lexeme} {s : Outline}

theorem enclosing_settle (body : Body) (held : Option Held) :
    (settle body held).enclosing = body.enclosing := by
  cases held <;> rfl

/-- Which brackets are open is the same with the held literal settled. -/
theorem outline_inside (name : String) (location : Location) (body : Body) (held : Option Held) :
    (Place.inside name location body held).outline =
      .inside ((settle body held).enclosing.map Prod.fst) held.isSome := by
  rw [enclosing_settle]
  rfl

/-- Every move is a step of the outline. -/
theorem Moves.outline (h : Moves r lexeme r') :
    Outline.Steps r.place.outline lexeme.token r'.place.outline := by
  cases h with
  | name => exact .name _
  | define => exact .define
  | ellipsis => exact .ellipsis
  | bound => exact .bound _
  | reference =>
    rw [outline_inside]
    exact .reference _
  | literal =>
    rw [outline_inside]
    exact .literal _
  | bar hbody =>
    rw [outline_inside, hbody]
    exact .bar
  | enter bracket =>
    rw [outline_inside]
    exact .enter bracket
  | @leave _ _ _ _ _ _ bracket _ _ _ hbody =>
    rw [outline_inside, hbody]
    exact .leave bracket
  | semicolon hbody =>
    rw [outline_inside, hbody]
    exact .semicolon

theorem Run.outline (h : Run r lexemes r') :
    Outline.Run r.place.outline (lexemes.map Lexeme.token) r'.place.outline := by
  induction lexemes generalizing r with
  | nil =>
    obtain rfl := run_nil_iff.1 h
    exact .nil
  | cons lexeme lexemes ih =>
    obtain ⟨next, hmoves, hrest⟩ := run_cons_iff.1 h
    exact .cons hmoves.outline (ih hrest)

/-- Tokens that are accepted from the start are viable. -/
theorem Run.viable (h : Run .start lexemes r) : Viable (lexemes.map Lexeme.token) :=
  viable_iff_exists_run.2 ⟨_, h.outline⟩

/-- Every step of the outline is a move, unless the token completes a range. -/
theorem moves_of_steps (h : Outline.Steps r.place.outline lexeme.token s) :
    (∃ r', Moves r lexeme r') ∨
      ∃ declared name location body lower upper l,
        r = ⟨declared, .bounded name location body lower⟩ ∧ lexeme = ⟨.literal upper, l⟩ := by
  obtain ⟨declared, place⟩ := r
  obtain ⟨token, l⟩ := lexeme
  cases place with
  | outside =>
    cases h with
    | name => exact Or.inl ⟨_, .name⟩
  | named =>
    cases h with
    | define => exact Or.inl ⟨_, .define⟩
  | bounded =>
    cases h with
    | bound upper => exact Or.inr ⟨_, _, _, _, _, upper, l, rfl, rfl⟩
  | inside name location body held =>
    left
    dsimp only at h
    rw [outline_inside] at h
    generalize hbody : settle body held = settled at h
    obtain ⟨level, enclosing⟩ := settled
    generalize henclosing : List.map Prod.fst _ = brackets at h
    generalize hheld : held.isSome = isHeld at h
    cases h with
    | reference => exact ⟨_, .reference⟩
    | literal => exact ⟨_, .literal⟩
    | ellipsis =>
      obtain ⟨lower, rfl⟩ := Option.isSome_iff_exists.1 hheld
      exact ⟨_, .ellipsis⟩
    | bar => exact ⟨_, .bar hbody⟩
    | enter bracket => exact ⟨_, .enter bracket⟩
    | leave bracket =>
      obtain ⟨⟨_, outer⟩, enclosing, rfl, rfl, -⟩ := List.map_eq_cons_iff.1 henclosing
      exact ⟨_, .leave hbody⟩
    | semicolon =>
      obtain rfl := List.map_eq_nil_iff.1 henclosing
      exact ⟨_, .semicolon hbody⟩

/-- Where the reader stops, no token of this kind may follow, or a range is complete whose bounds do
not fit. -/
theorem step_error_outline {e : CompileError} (h : r.step lexeme = .error e) :
    e.location = lexeme.location ∧ (∀ s, ¬Outline.Steps r.place.outline lexeme.token s) ∨
      ∃ declared name location body lower upper l,
        r = ⟨declared, .bounded name location body lower⟩ ∧ lexeme = ⟨.literal upper, l⟩ ∧
          Atom.ofBounds lower.text upper lower.location = .error e := by
  rcases step_error_cases h with ⟨-, hlocation⟩ | hbounds
  · by_cases hsteps : ∃ s, Outline.Steps r.place.outline lexeme.token s
    · obtain ⟨s, hsteps⟩ := hsteps
      rcases moves_of_steps hsteps with
        ⟨r', hmoves⟩ | ⟨declared, name, location, body, lower, upper, l, rfl, rfl⟩
      · rw [step_eq_ok_iff.2 hmoves] at h
        cases h
      · refine Or.inr ⟨declared, name, location, body, lower, upper, l, rfl, rfl, ?_⟩
        simp only [step] at h
        split at h
        · next hrange =>
          cases h
          exact hrange
        · cases h
    · exact Or.inl ⟨hlocation, not_exists.1 hsteps⟩
  · exact Or.inr hbounds

/-! ### The ranges of a reading -/

/-- A literal is held only right behind it. -/
theorem Moves.held_eq {declared : List Declaration} {name : String} {location : Location}
    {body : Body} {held : Held}
    (h : Moves r lexeme ⟨declared, .inside name location body (some held)⟩) :
    lexeme = ⟨.literal held.text, held.location⟩ := by
  cases h with
  | literal => rfl

/-- Dots are read behind a literal that is held. -/
theorem Moves.of_ellipsis {l : Location} (h : Moves r ⟨.ellipsis, l⟩ r') :
    ∃ declared name location body lower, r = ⟨declared, .inside name location body (some lower)⟩ ∧
      r' = ⟨declared, .bounded name location body lower⟩ := by
  generalize hlexeme : (⟨.ellipsis, l⟩ : Lexeme) = lexeme at h
  cases h with
  | ellipsis => exact ⟨_, _, _, _, _, rfl, rfl⟩
  | @enter bracket => cases bracket <;> cases hlexeme
  | @leave _ _ _ _ _ _ bracket => cases bracket <;> cases hlexeme
  | _ => cases hlexeme

/-- Behind the dots of a range only its upper bound is read. -/
theorem Moves.boundsRange {declared : List Declaration} {name upper : String}
    {location l : Location} {body : Body} {lower : Held}
    (h : Moves ⟨declared, .bounded name location body lower⟩ ⟨.literal upper, l⟩ r') :
    BoundsRange lower.text upper := by
  cases h with
  | bound hrange =>
    obtain ⟨lo, hi, hlo, hhi, hle, -⟩ := Atom.ofBounds_eq_ok_iff.1 hrange
    exact ⟨lo, hi, hlo, hhi, hle⟩

/-- The ranges of what is read have bounds that fit. -/
theorem Run.not_badRangeAt (h : Run r lexemes r') (i : Nat) :
    ¬BadRangeAt (lexemes.map Lexeme.token) i := by
  rintro ⟨before, lo, hi, after, htokens, -, hbad⟩
  obtain ⟨lexemes', rest, rfl, -, hrest⟩ := List.map_eq_append_iff.1 htokens
  obtain ⟨⟨first, l⟩, rest', rfl, rfl : first = _, hrest'⟩ := List.map_eq_cons_iff.1 hrest
  obtain ⟨⟨second, l'⟩, rest'', rfl, rfl : second = _, hrest''⟩ := List.map_eq_cons_iff.1 hrest'
  obtain ⟨⟨third, l''⟩, last, rfl, rfl : third = _, -⟩ := List.map_eq_cons_iff.1 hrest''
  obtain ⟨_, -, hrun⟩ := run_append_iff.1 h
  obtain ⟨_, hlower, hrun⟩ := run_cons_iff.1 hrun
  obtain ⟨_, hdots, hrun⟩ := run_cons_iff.1 hrun
  obtain ⟨_, hupper, -⟩ := run_cons_iff.1 hrun
  obtain ⟨_, _, _, _, lower, rfl, rfl⟩ := hdots.of_ellipsis
  cases hlower.held_eq
  exact hbad hupper.boundsRange

/-- Behind the dots of a range its lower bound is the token before these. -/
theorem exists_eq_append_of_run_bounded {declared : List Declaration} {name : String}
    {location : Location} {body : Body} {lower : Held}
    (h : Run .start lexemes ⟨declared, .bounded name location body lower⟩) :
    ∃ before l, lexemes = before ++ [⟨.literal lower.text, lower.location⟩, ⟨.ellipsis, l⟩] := by
  rcases lexemes.eq_nil_or_concat' with rfl | ⟨lexemes, dots, rfl⟩
  · cases run_nil_iff.1 h
  · obtain ⟨_, hrun, hlast⟩ := run_append_iff.1 h
    obtain ⟨_, hdots, hend⟩ := run_cons_iff.1 hlast
    obtain rfl := run_nil_iff.1 hend
    cases hdots with
    | ellipsis =>
      rcases lexemes.eq_nil_or_concat' with rfl | ⟨before, literal, rfl⟩
      · cases run_nil_iff.1 hrun
      · obtain ⟨_, -, hlast⟩ := run_append_iff.1 hrun
        obtain ⟨_, hliteral, hend⟩ := run_cons_iff.1 hlast
        obtain rfl := run_nil_iff.1 hend
        obtain rfl := hliteral.held_eq
        exact ⟨before, _, List.append_assoc ..⟩

end Reader

/-! ### The first error -/

/-- The indices of the tokens with which the beginning of a token sequence is no longer viable, and
the number of tokens. -/
def hopeless (tokens : List Token) : Set Nat :=
  {k | k = tokens.length ∨ k < tokens.length ∧ ¬Viable (tokens.take (k + 1))}

/-- The indices at which a range begins that ends before `p` and has bounds that do not fit. -/
def badRanges (tokens : List Token) (p : Nat) : Set Nat :=
  {i | i + 2 < p ∧ BadRangeAt tokens i}

theorem exists_isLeast_hopeless (tokens : List Token) : ∃ p, IsLeast (hopeless tokens) p := by
  classical
  have h : ∃ k, k ∈ hopeless tokens := ⟨tokens.length, Or.inl rfl⟩
  exact ⟨Nat.find h, Nat.find_spec h, fun k hk => Nat.find_min' h hk⟩

/-- No token of viable tokens is hopeless. -/
theorem length_le_of_mem_hopeless {before after : List Token} (h : Viable before) {k : Nat}
    (hk : k ∈ hopeless (before ++ after)) : before.length ≤ k := by
  rcases hk with rfl | ⟨-, hviable⟩
  · simp
  · by_contra hlt
    apply hviable
    rw [List.take_append_of_le_length (by omega)]
    exact Viable.of_take_le (Nat.lt_of_not_le hlt) (by rwa [List.take_length])

/-- A token with which viable tokens are no longer viable is the first hopeless one. -/
theorem isLeast_hopeless {before after : List Token} {token : Token} (h : Viable before)
    (h' : ¬Viable (before ++ [token])) :
    IsLeast (hopeless (before ++ token :: after)) before.length := by
  refine ⟨Or.inr ⟨by simp, ?_⟩, fun k hk => length_le_of_mem_hopeless h hk⟩
  rwa [List.take_length_add_append]

/-- Viable tokens have no hopeless one. -/
theorem isLeast_hopeless_length {tokens : List Token} (h : Viable tokens) :
    IsLeast (hopeless tokens) tokens.length := by
  refine ⟨Or.inl rfl, fun k hk => ?_⟩
  rw [← List.append_nil tokens] at hk
  exact length_le_of_mem_hopeless h hk

/-- Tells where an error of syntax has to be. Let `p` be the number of the first token that cannot
be right, or the number of tokens if there is none. If some range that ends before it is bad, then
the place is the lower bound of the first such range, and else it is the token `p`, or the end of
the text. -/
structure Pinpoints (lexemes : List Lexeme) (endOfText location : Location) (p : Nat) : Prop where
  isLeast : IsLeast (hopeless (lexemes.map Lexeme.token)) p
  range : ∀ i, IsLeast (badRanges (lexemes.map Lexeme.token) p) i →
    location = Lexeme.placeOf lexemes endOfText i
  token : badRanges (lexemes.map Lexeme.token) p = ∅ →
    location = Lexeme.placeOf lexemes endOfText p

theorem Lexeme.placeOf_append (before after : List Lexeme) (lexeme : Lexeme)
    (endOfText : Location) :
    placeOf (before ++ lexeme :: after) endOfText before.length = lexeme.location := by
  simp [placeOf]

theorem Lexeme.placeOf_length (lexemes : List Lexeme) (endOfText : Location) :
    placeOf lexemes endOfText lexemes.length = endOfText := by
  simp [placeOf]

namespace Reader

variable {r r' : Reader} {lexeme : Lexeme} {before after : List Lexeme} {endOfText : Location}

/-- A bad range does not end in tokens that were read. -/
theorem Run.length_le_of_badRangeAt (h : Run r before r') {i : Nat}
    (hi : BadRangeAt ((before ++ after).map Lexeme.token) i) : before.length ≤ i + 2 := by
  by_contra hlt
  have htake := hi.take (Nat.lt_of_not_le hlt)
  rw [List.map_append, List.take_left' (List.length_map ..)] at htake
  exact h.not_badRangeAt i htake

theorem Run.badRanges_eq_empty (h : Run r before r') :
    badRanges ((before ++ after).map Lexeme.token) before.length = ∅ := by
  rw [Set.eq_empty_iff_forall_notMem]
  rintro i ⟨hlt, hi⟩
  exact Nat.not_lt.2 (h.length_le_of_badRangeAt hi) hlt

/-- Tokens that were read to the end have no bad range, and none of them is hopeless. -/
theorem Run.pinpoints_end (h : Run .start before r) :
    Pinpoints before endOfText endOfText before.length := by
  have hempty : badRanges ((before ++ []).map Lexeme.token) before.length = ∅ :=
    h.badRanges_eq_empty
  have hleast := isLeast_hopeless_length h.viable
  rw [List.append_nil] at hempty
  rw [List.length_map] at hleast
  refine ⟨hleast, fun i hi => ?_, fun _ => (Lexeme.placeOf_length ..).symm⟩
  rw [hempty] at hi
  exact absurd hi.1 (Set.notMem_empty i)

/-- A token that may not follow what was read is the first hopeless one. -/
theorem Run.pinpoints_token (h : Run .start before r)
    (hstep : ∀ s, ¬Outline.Steps r.place.outline lexeme.token s) :
    Pinpoints (before ++ lexeme :: after) endOfText lexeme.location before.length := by
  have hviable : ¬Viable (before.map Lexeme.token ++ [lexeme.token]) := by
    rw [viable_concat_iff h.outline]
    exact not_exists.2 hstep
  have hleast : IsLeast (hopeless (before.map Lexeme.token ++ lexeme.token ::
      after.map Lexeme.token)) _ := isLeast_hopeless h.viable hviable
  rw [List.length_map, ← List.map_cons, ← List.map_append] at hleast
  refine ⟨hleast, fun i hi => ?_, fun _ => (Lexeme.placeOf_append ..).symm⟩
  rw [h.badRanges_eq_empty] at hi
  exact absurd hi.1 (Set.notMem_empty i)

/-- A range that is complete and does not fit is the first bad one, and ends before the first
hopeless token. -/
theorem Run.exists_pinpoints_range {lower dots bound : Lexeme} {lo hi : String}
    (h : Run .start (before ++ [lower, dots]) r)
    (hviable : Viable ((before ++ [lower, dots, bound]).map Lexeme.token))
    (hlower : lower.token = .literal lo) (hdots : dots.token = .ellipsis)
    (hbound : bound.token = .literal hi) (hbad : ¬BoundsRange lo hi) :
    ∃ p, Pinpoints (before ++ lower :: dots :: bound :: after) endOfText lower.location p := by
  obtain ⟨p, hp⟩ := exists_isLeast_hopeless
    ((before ++ lower :: dots :: bound :: after).map Lexeme.token)
  have hle : before.length + 3 ≤ p := by
    have hsplit : before ++ lower :: dots :: bound :: after =
        before ++ [lower, dots, bound] ++ after := by simp
    have hmem := hp.1
    rw [hsplit, List.map_append] at hmem
    simpa using length_le_of_mem_hopeless hviable hmem
  have hrange : BadRangeAt ((before ++ lower :: dots :: bound :: after).map Lexeme.token)
      before.length :=
    ⟨before.map Lexeme.token, lo, hi, after.map Lexeme.token, by simp [hlower, hdots, hbound],
      List.length_map _, hbad⟩
  have hleast : IsLeast
      (badRanges ((before ++ lower :: dots :: bound :: after).map Lexeme.token) p)
      before.length := by
    refine ⟨⟨hle, hrange⟩, fun i hi => ?_⟩
    have hsplit : before ++ lower :: dots :: bound :: after =
        before ++ [lower, dots] ++ bound :: after := by simp
    have hlength := h.length_le_of_badRangeAt (hsplit ▸ hi.2)
    simpa using hlength
  refine ⟨p, hp, fun i hi => ?_, fun hempty => ?_⟩
  · rw [hi.unique hleast, Lexeme.placeOf_append]
  · exact absurd (hempty ▸ hleast.1) (Set.notMem_empty _)

end Reader

namespace Declaration

variable {lexemes : List Lexeme} {endOfText : Location} {e : CompileError}

/-- Tokens that form no declarations are an error where their outline says. -/
theorem exists_pinpoints (h : ofLexemes lexemes endOfText = .error e) :
    ∃ p, Pinpoints lexemes endOfText e.location p := by
  unfold ofLexemes at h
  cases hrun : lexemes.foldlM Reader.step Reader.start with
  | ok r =>
    rw [hrun] at h
    obtain ⟨-, hlocation⟩ := Reader.finish_error h
    have hrun : Reader.Run .start lexemes r := hrun
    rw [hlocation]
    exact ⟨_, hrun.pinpoints_end⟩
  | error e' =>
    rw [hrun] at h
    cases h
    obtain ⟨before, lexeme, after, r, rfl, hbefore, hstep⟩ := foldlM_eq_error_iff.1 hrun
    have hbefore : Reader.Run .start before r := hbefore
    rcases Reader.step_error_outline hstep with
      ⟨hlocation, hnone⟩ |
        ⟨declared, name, location, body, lower, upper, l, rfl, rfl, hbounds⟩
    · rw [hlocation]
      exact ⟨_, hbefore.pinpoints_token hnone⟩
    · obtain ⟨before, l', rfl⟩ := Reader.exists_eq_append_of_run_bounded hbefore
      have hviable := (viable_concat_iff hbefore.outline (.literal upper)).2 ⟨_, .bound upper⟩
      have hbad : ¬BoundsRange lower.text upper := by
        rintro ⟨lo, hi, hlo, hhi, hle⟩
        rw [Atom.ofBounds_eq_ok_iff.2 ⟨lo, hi, hlo, hhi, hle, rfl⟩] at hbounds
        cases hbounds
      rw [(Atom.ofBounds_error hbounds).2, List.append_assoc]
      exact hbefore.exists_pinpoints_range (by simpa using hviable) rfl rfl rfl hbad

end Declaration

/-- **Errors of syntax point at the first token that cannot be right.** Let a text split into tokens
that form no declarations, and let `p` be the number of the first token with which the tokens are no
longer the beginning of tokens that follow the rules, whatever the literals hold; or the number of
tokens, if there is none. If a range ends before `p` whose bounds are not single characters in
order, then the error is located at the lower bound of the first such range. Otherwise it is located
at the token `p`, or at the end of the text. Compilation gives this error for every start symbol. -/
theorem syntax_error_at_first_hopeless {text : List Char} {lexemes : List Lexeme}
    {e : CompileError} (htokens : tokenize text = .ok lexemes)
    (h : Declaration.ofLexemes lexemes (.endOf text) = .error e) :
    e.fault = .syntaxError ∧ (∀ start, Grammar.compile text start = .error e) ∧
      ∃ p, Pinpoints lexemes (.endOf text) e.location p := by
  have hchars : Declaration.ofChars text = .error e := by
    rw [Declaration.ofChars, htokens]
    exact h
  exact ⟨(Declaration.ofChars_error hchars).1,
    fun start => Grammar.compile_of_ofChars_error hchars, Declaration.exists_pinpoints h⟩

/-- A text with a range whose bounds are not in order, in front of a token that cannot be right. -/
def backwardsText : List Char := "s=\"b\"...\"a\"|=;".toList

/-- The tokens of `backwardsText`. -/
def backwardsLexemes : List Lexeme :=
  [⟨.identifier "s", ⟨0, 1, 1⟩⟩, ⟨.define, ⟨1, 1, 2⟩⟩, ⟨.literal "b", ⟨2, 1, 3⟩⟩,
    ⟨.ellipsis, ⟨5, 1, 6⟩⟩, ⟨.literal "a", ⟨8, 1, 9⟩⟩, ⟨.bar, ⟨11, 1, 12⟩⟩,
    ⟨.define, ⟨12, 1, 13⟩⟩, ⟨.semicolon, ⟨13, 1, 14⟩⟩]

theorem syntax_error_at_first_hopeless_backwards :
    ∃ e, Declaration.ofLexemes backwardsLexemes (.endOf backwardsText) = .error e ∧
      e.location = ⟨2, 1, 3⟩ ∧ e.fault = .syntaxError ∧
      Grammar.compile backwardsText "s" = .error e ∧
      ∃ p, Pinpoints backwardsLexemes (.endOf backwardsText) ⟨2, 1, 3⟩ p := by
  have htokens : tokenize backwardsText = .ok backwardsLexemes := by decide +kernel
  have h : Declaration.ofLexemes backwardsLexemes (.endOf backwardsText) =
      .error ⟨.syntaxError, ⟨2, 1, 3⟩, _⟩ := rfl
  obtain ⟨hfault, hcompile, hplace⟩ := syntax_error_at_first_hopeless htokens h
  exact ⟨_, h, rfl, hfault, hcompile "s", hplace⟩

end Earley
