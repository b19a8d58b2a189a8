/-
  How tokens are spelled, and what may stand between them.

  The relations here say which characters are trivia, which characters spell a token, and where a
  misspelling begins, each in front of what follows in the text: a line comment reaches to the end
  of its line, an identifier is as long as it can be, and an opening parenthesis is not followed by
  a star. They are about texts and know nothing of how a text is walked through.

  The walks of the token stream are then shown to find what the relations describe: the trivia
  (`skipTrivia_ok`, `skipTrivia_error`), the rest of a literal (`readLiteral_ok`,
  `readLiteral_error`) and one token (`readToken_ok`, `readToken_error`). In each case the location
  has moved over exactly the characters that were read.
-/
import Earley.Proofs.Ebnf.Names
import Mathlib.Data.List.Infix

namespace Earley

/-! ### Trivia -/

/-- The mark that closes a block comment. -/
def closeComment : List Char := ['*', ')']

/-- Tells that characters are trivia in front of `rest`: blanks, comments from `#` to the end of the
line, and block comments that are closed by the first mark behind their opening. -/
inductive TriviaBefore (rest : List Char) : List Char → Prop
  | nil : TriviaBefore rest []
  | blank {c : Char} {trivia : List Char} (hc : isBlank c = true)
      (h : TriviaBefore rest trivia) : TriviaBefore rest (c :: trivia)
  | line {comment trivia : List Char} (hcomment : '\n' ∉ comment)
      (hend : ∀ c ∈ (trivia ++ rest).head?, c = '\n') (h : TriviaBefore rest trivia) :
      TriviaBefore rest ('#' :: (comment ++ trivia))
  | block {comment trivia : List Char} (hcomment : ¬closeComment <:+: comment ++ ['*'])
      (h : TriviaBefore rest trivia) :
      TriviaBefore rest ('(' :: '*' :: (comment ++ closeComment ++ trivia))

/-- Tells that a text does not begin with trivia. -/
structure StartsNoTrivia (rest : List Char) : Prop where
  not_blank : ∀ c ∈ rest.head?, isBlank c = false
  not_hash : rest.head? ≠ some '#'
  not_comment : ¬['(', '*'] <+: rest

/-! ### Tokens -/

/-- Tells that characters between two quotes stand for a text: each of them for itself, unless it
is the quote or a backslash, and a backslash together with the next one for what that means. -/
inductive SpellsText (quote : Char) : List Char → List Char → Prop
  | nil : SpellsText quote [] []
  | plain {c : Char} {text w : List Char} (hquote : c ≠ quote) (hbackslash : c ≠ '\\')
      (h : SpellsText quote text w) : SpellsText quote (c :: text) (c :: w)
  | escape {c d : Char} {text w : List Char} (hd : unescape d = some c)
      (h : SpellsText quote text w) : SpellsText quote (c :: text) ('\\' :: d :: w)

namespace Token

/-- The spellings of a sign; identifiers and literals are no signs. -/
def signs : Token → List (List Char)
  | identifier _ | literal _ => []
  | define => [['='], [':', '='], [':', ':', '=']]
  | bar => [['|']]
  | semicolon => [[';']]
  | ellipsis => [['.', '.', '.']]
  | openBracket => [['[']]
  | closeBracket => [[']']]
  | openBrace => [['\x7b']]
  | closeBrace => [['\x7d']]
  | openParen => [['(']]
  | closeParen => [[')']]

theorem ne_nil_of_mem_signs {token : Token} {w : List Char} (h : w ∈ token.signs) : w ≠ [] := by
  rintro rfl
  cases token <;> simp [signs] at h

/-- Tells that characters spell a token in front of `rest`. -/
inductive SpelledBefore (rest : List Char) : Token → List Char → Prop
  | identifier {name : String} (h : IsIdentifier name)
      (hend : ∀ c ∈ rest.head?, isIdentifierRest c = false) :
      SpelledBefore rest (.identifier name) name.toList
  | literal {quote : Char} {text w : List Char} (hquote : quote = '"' ∨ quote = '\'')
      (h : SpellsText quote text w) :
      SpelledBefore rest (.literal (String.ofList text)) (quote :: w ++ [quote])
  | sign {token : Token} {w : List Char} (h : w ∈ token.signs)
      (hparen : token = .openParen → rest.head? ≠ some '*') : SpelledBefore rest token w

end Token

/-- Tells that a misspelling begins where a text does. -/
inductive Misspelling.Begins : Misspelling → List Char → Prop
  | openComment {rest : List Char} (h : ¬closeComment <:+: rest) :
      Begins openComment ('(' :: '*' :: rest)
  | openLiteral {quote : Char} {text w last : List Char} (hquote : quote = '"' ∨ quote = '\'')
      (h : SpellsText quote text w) (hlast : last = [] ∨ last = ['\\']) :
      Begins openLiteral (quote :: w ++ last)
  | unknownEscape {quote c : Char} {text w rest : List Char} (hquote : quote = '"' ∨ quote = '\'')
      (h : SpellsText quote text w) (hc : unescape c = none) :
      Begins (unknownEscape c) (quote :: w ++ '\\' :: c :: rest)
  | incompleteDefine {rest : List Char} (h : ¬['='] <+: rest) (h' : ¬[':', '='] <+: rest) :
      Begins incompleteDefine (':' :: rest)
  | incompleteEllipsis {rest : List Char} (h : ¬['.', '.'] <+: rest) :
      Begins incompleteEllipsis ('.' :: rest)
  | strayChar {c : Char} {rest : List Char} (hrest : StartsNoTrivia (c :: rest))
      (hsign : ∀ token, ∀ w ∈ Token.signs token, w.head? ≠ some c)
      (hquote : ¬(c = '"' ∨ c = '\'')) (hstart : isIdentifierStart c = false) :
      Begins (strayChar c) (c :: rest)

theorem Misspelling.Begins.ne_nil {fault : Misspelling} {rest : List Char}
    (h : fault.Begins rest) : rest ≠ [] := by
  cases h <;> simp

/-! ### Walking over trivia -/

/-- What a walk over trivia drops in front of `rest`, by its mode: inside a comment, first what is
left of that. -/
def TriviaMode.Drops (rest : List Char) : TriviaMode → List Char → Prop
  | .plain, dropped => TriviaBefore rest dropped
  | .line, dropped => ∃ comment trivia, dropped = comment ++ trivia ∧ '\n' ∉ comment ∧
      (∀ c ∈ (trivia ++ rest).head?, c = '\n') ∧ TriviaBefore rest trivia
  | .block _, dropped => ∃ comment trivia, dropped = comment ++ closeComment ++ trivia ∧
      ¬closeComment <:+: comment ++ ['*'] ∧ TriviaBefore rest trivia

namespace TriviaMode

variable {rest dropped : List Char} {opened : Location} {c : Char}

theorem Drops.hash (h : line.Drops rest dropped) : plain.Drops rest ('#' :: dropped) := by
  obtain ⟨comment, trivia, rfl, hcomment, hend, htrivia⟩ := h
  exact .line hcomment hend htrivia

theorem Drops.openBlock (h : (block opened).Drops rest dropped) :
    plain.Drops rest ('(' :: '*' :: dropped) := by
  obtain ⟨comment, trivia, rfl, hcomment, htrivia⟩ := h
  exact .block hcomment htrivia

theorem Drops.lineFeed (h : plain.Drops rest dropped) : line.Drops rest ('\n' :: dropped) :=
  ⟨[], '\n' :: dropped, rfl, by simp, by simp, .blank (by decide) h⟩

theorem Drops.line_cons (hc : c ≠ '\n') (h : line.Drops rest dropped) :
    line.Drops rest (c :: dropped) := by
  obtain ⟨comment, trivia, rfl, hcomment, hend, htrivia⟩ := h
  exact ⟨c :: comment, trivia, rfl, by simpa [hc.symm] using hcomment, hend, htrivia⟩

theorem not_closeComment_infix_singleton : ¬closeComment <:+: ['*'] := by
  intro h
  simpa [closeComment] using h.length_le

theorem Drops.closeBlock (h : plain.Drops rest dropped) :
    (block opened).Drops rest ('*' :: ')' :: dropped) :=
  ⟨[], dropped, rfl, not_closeComment_infix_singleton, h⟩

/-- A comment is not closed by a character in front of it, unless that is the star of a mark. -/
theorem not_closeComment_infix_cons {cs : List Char} (hc : c = '*' → cs.head? ≠ some ')')
    (h : ¬closeComment <:+: cs) : ¬closeComment <:+: c :: cs := by
  rw [List.infix_cons_iff, not_or]
  refine ⟨fun hprefix => ?_, h⟩
  obtain ⟨tail, htail⟩ := hprefix
  obtain ⟨hstar, hparen⟩ := List.cons.inj htail
  exact hc hstar.symm (hparen ▸ rfl)

theorem Drops.block_cons (hc : c = '*' → (dropped ++ rest).head? ≠ some ')')
    (h : (block opened).Drops rest dropped) : (block opened).Drops rest (c :: dropped) := by
  obtain ⟨comment, trivia, rfl, hcomment, htrivia⟩ := h
  refine ⟨c :: comment, trivia, rfl, not_closeComment_infix_cons (fun hstar => ?_) hcomment,
    htrivia⟩
  have hhead := hc hstar
  cases comment with
  | nil => simp
  | cons d comment => simpa using hhead

end TriviaMode

/-- The walk over trivia drops trivia, and nothing is left of it in front. -/
theorem skipTrivia_ok {mode : TriviaMode} {cs rest : List Char} {loc loc' : Location}
    (h : skipTrivia mode cs loc = .ok (rest, loc')) :
    ∃ dropped, cs = dropped ++ rest ∧ mode.Drops rest dropped ∧ loc' = loc.advanceAll dropped ∧
      StartsNoTrivia rest := by
  fun_induction skipTrivia mode cs loc with
  | case1 tail loc ih =>
    obtain ⟨dropped, rfl, hdrops, rfl, hrest⟩ := ih h
    exact ⟨'(' :: '*' :: dropped, rfl, hdrops.openBlock, rfl, hrest⟩
  | case2 c tail loc _ hblank ih =>
    obtain ⟨dropped, rfl, hdrops, rfl, hrest⟩ := ih h
    exact ⟨c :: dropped, rfl, .blank hblank hdrops, rfl, hrest⟩
  | case3 tail loc _ hblank ih =>
    obtain ⟨dropped, rfl, hdrops, rfl, hrest⟩ := ih h
    exact ⟨'#' :: dropped, rfl, hdrops.hash, rfl, hrest⟩
  | case4 c tail loc hcomment hblank hhash =>
    cases h
    refine ⟨[], rfl, .nil, rfl, ?_, ?_, ?_⟩
    · simpa using hblank
    · simpa using hhash
    · rintro ⟨rest, hprefix⟩
      cases hprefix
      exact hcomment rest rfl rfl
  | case5 c tail loc ih =>
    obtain ⟨dropped, rfl, hdrops, rfl, hrest⟩ := ih h
    refine ⟨c :: dropped, rfl, ?_, rfl, hrest⟩
    split at hdrops
    · next hc => exact hc ▸ hdrops.lineFeed
    · next hc => exact hdrops.line_cons hc
  | case6 opened tail loc ih =>
    obtain ⟨dropped, rfl, hdrops, rfl, hrest⟩ := ih h
    exact ⟨'*' :: ')' :: dropped, rfl, hdrops.closeBlock, rfl, hrest⟩
  | case7 opened c tail loc hclose ih =>
    obtain ⟨dropped, rfl, hdrops, rfl, hrest⟩ := ih h
    refine ⟨c :: dropped, rfl, hdrops.block_cons fun hstar hhead => ?_, rfl, hrest⟩
    obtain ⟨tail, htail⟩ := List.head?_eq_some_iff.1 hhead
    exact hclose tail hstar htail
  | case8 => cases h
  | case9 mode loc hmode =>
    cases h
    refine ⟨[], rfl, ?_, rfl, by simp, by simp, by simp⟩
    cases mode with
    | plain => exact .nil
    | line => exact ⟨[], [], rfl, by simp, by simp, .nil⟩
    | block opened => exact absurd rfl (hmode opened)

/-- Tells that a walk over trivia is stopped by a block comment that is not closed, which was
opened at `loc'`: the one that the walk is in, or one behind what is dropped. -/
def TriviaMode.Stuck (mode : TriviaMode) (cs : List Char) (loc loc' : Location) : Prop :=
  mode = .block loc' ∧ ¬closeComment <:+: cs ∨
    ∃ dropped rest, cs = dropped ++ rest ∧ mode.Drops rest dropped ∧
      Misspelling.openComment.Begins rest ∧ loc' = loc.advanceAll dropped

/-- The walk over trivia fails only at a block comment that is not closed. -/
theorem skipTrivia_error {mode : TriviaMode} {cs : List Char} {loc : Location} {e : TokenError}
    (h : skipTrivia mode cs loc = .error e) :
    ∃ loc', e = .ofMisspelling .openComment loc' ∧ mode.Stuck cs loc loc' := by
  fun_induction skipTrivia mode cs loc with
  | case1 tail loc ih =>
    obtain ⟨loc', he, ⟨hmode, hclose⟩ | ⟨dropped, rest, rfl, hdrops, hbegins, rfl⟩⟩ := ih h
    · cases hmode
      exact ⟨_, he, Or.inr ⟨[], _, rfl, .nil, .openComment hclose, rfl⟩⟩
    · exact ⟨_, he, Or.inr ⟨'(' :: '*' :: dropped, rest, rfl, hdrops.openBlock, hbegins, rfl⟩⟩
  | case2 c tail loc _ hblank ih =>
    obtain ⟨loc', he, ⟨hmode, -⟩ | ⟨dropped, rest, rfl, hdrops, hbegins, rfl⟩⟩ := ih h
    · cases hmode
    · exact ⟨_, he, Or.inr ⟨c :: dropped, rest, rfl, .blank hblank hdrops, hbegins, rfl⟩⟩
  | case3 tail loc _ hblank ih =>
    obtain ⟨loc', he, ⟨hmode, -⟩ | ⟨dropped, rest, rfl, hdrops, hbegins, rfl⟩⟩ := ih h
    · cases hmode
    · exact ⟨_, he, Or.inr ⟨'#' :: dropped, rest, rfl, hdrops.hash, hbegins, rfl⟩⟩
  | case4 => cases h
  | case5 c tail loc ih =>
    obtain ⟨loc', he, ⟨hmode, -⟩ | ⟨dropped, rest, rfl, hdrops, hbegins, rfl⟩⟩ := ih h
    · split at hmode <;> cases hmode
    · refine ⟨_, he, Or.inr ⟨c :: dropped, rest, rfl, ?_, hbegins, rfl⟩⟩
      split at hdrops
      · next hc => exact hc ▸ hdrops.lineFeed
      · next hc => exact hdrops.line_cons hc
  | case6 opened tail loc ih =>
    obtain ⟨loc', he, ⟨hmode, -⟩ | ⟨dropped, rest, rfl, hdrops, hbegins, rfl⟩⟩ := ih h
    · cases hmode
    · exact ⟨_, he, Or.inr ⟨'*' :: ')' :: dropped, rest, rfl, hdrops.closeBlock, hbegins, rfl⟩⟩
  | case7 opened c tail loc hclose ih =>
    have hstar : c = '*' → tail.head? ≠ some ')' := by
      intro hc hhead
      obtain ⟨tail', htail⟩ := List.head?_eq_some_iff.1 hhead
      exact hclose tail' hc htail
    obtain ⟨loc', he, ⟨hmode, hopen⟩ | ⟨dropped, rest, rfl, hdrops, hbegins, rfl⟩⟩ := ih h
    · exact ⟨_, he, Or.inl ⟨hmode, TriviaMode.not_closeComment_infix_cons hstar hopen⟩⟩
    · exact ⟨_, he, Or.inr ⟨c :: dropped, rest, rfl, hdrops.block_cons hstar, hbegins, rfl⟩⟩
  | case8 opened loc =>
    cases h
    exact ⟨opened, rfl, Or.inl ⟨rfl, by simp [closeComment]⟩⟩
  | case9 => cases h

/-! ### Reading a token -/

section ReadLiteral

variable {quote : Char} {taken cs rest : List Char} {loc loc' : Location} {text : String}

theorem readLiteral_ok (h : readLiteral quote taken cs loc = .ok (text, rest, loc')) :
    ∃ text' w, cs = w ++ quote :: rest ∧ SpellsText quote text' w ∧
      text = String.ofList (taken.reverse ++ text') ∧ loc' = loc.advanceAll (w ++ [quote]) := by
  fun_induction readLiteral quote taken cs loc with
  | case1 => cases h
  | case2 taken tail loc =>
    cases h
    exact ⟨[], [], rfl, .nil, by simp, rfl⟩
  | case3 => cases h
  | case4 => cases h
  | case5 taken loc d tail e he _ ih =>
    obtain ⟨text', w, rfl, hspells, rfl, rfl⟩ := ih h
    exact ⟨e :: text', '\\' :: d :: w, rfl, .escape he hspells, by simp, rfl⟩
  | case6 taken c tail loc hquote hbackslash ih =>
    obtain ⟨text', w, rfl, hspells, rfl, rfl⟩ := ih h
    exact ⟨c :: text', c :: w, rfl, .plain hquote hbackslash hspells, by simp, rfl⟩

theorem readLiteral_error {fault : Misspelling}
    (h : readLiteral quote taken cs loc = .error fault)
    (hquote : quote = '"' ∨ quote = '\'') : fault.Begins (quote :: cs) := by
  have hparts : ∃ text w last, cs = w ++ last ∧ SpellsText quote text w ∧
      (fault = .openLiteral ∧ (last = [] ∨ last = ['\\']) ∨
        ∃ d rest, fault = .unknownEscape d ∧ unescape d = none ∧ last = '\\' :: d :: rest) := by
    fun_induction readLiteral quote taken cs loc with
    | case1 =>
      cases h
      exact ⟨[], [], [], rfl, .nil, Or.inl ⟨rfl, Or.inl rfl⟩⟩
    | case2 => cases h
    | case3 =>
      cases h
      exact ⟨[], [], ['\\'], rfl, .nil, Or.inl ⟨rfl, Or.inr rfl⟩⟩
    | case4 taken loc d tail hd =>
      cases h
      exact ⟨[], [], '\\' :: d :: tail, rfl, .nil, Or.inr ⟨d, tail, rfl, hd, rfl⟩⟩
    | case5 taken loc d tail e he _ ih =>
      obtain ⟨text, w, last, rfl, hspells, hlast⟩ := ih h
      exact ⟨e :: text, '\\' :: d :: w, last, rfl, .escape he hspells, hlast⟩
    | case6 taken c tail loc hne hbackslash ih =>
      obtain ⟨text, w, last, rfl, hspells, hlast⟩ := ih h
      exact ⟨c :: text, c :: w, last, rfl, .plain hne hbackslash hspells, hlast⟩
  obtain ⟨text, w, last, rfl, hspells, ⟨rfl, hlast⟩ | ⟨d, rest, rfl, hd, rfl⟩⟩ := hparts
  · exact .openLiteral hquote hspells hlast
  · exact .unknownEscape hquote hspells hd

end ReadLiteral

section ReadToken

variable {c : Char} {rest : List Char} {loc : Location} {reading : Reading} {fault : Misspelling}

/-- Tells that a reading is that of a token at the head of a text: its spelling is followed by what
is left, and the location has moved over it. -/
def Reading.IsAt (reading : Reading) (cs : List Char) (loc : Location) : Prop :=
  ∃ w, cs = w ++ reading.rest ∧ w ≠ [] ∧ reading.token.SpelledBefore reading.rest w ∧
    reading.location = loc.advanceAll w

theorem Reading.isAt_ofSpelling {token : Token} {w : List Char} (h : w ∈ token.signs)
    (hparen : token = .openParen → rest.head? ≠ some '*') :
    (Reading.ofSpelling token w rest loc).IsAt (w ++ rest) loc :=
  ⟨w, rfl, Token.ne_nil_of_mem_signs h, .sign h hparen, rfl⟩

theorem readWord_ok (h : readWord c rest loc = .ok reading) : reading.IsAt (c :: rest) loc := by
  unfold readWord at h
  split at h
  · next hquote =>
    split at h
    · cases h
    · next text tail loc' hliteral =>
      cases h
      obtain ⟨text', w, rfl, hspells, rfl, rfl⟩ := readLiteral_ok hliteral
      exact ⟨c :: w ++ [c], by simp, by simp, .literal hquote hspells, rfl⟩
  · split at h
    · next hstart =>
      cases h
      -- What is taken from the rest may stand in an identifier, and what follows may not.
      have hname : IsIdentifier (String.ofList (c :: rest.takeWhile isIdentifierRest)) :=
        ⟨c, _, String.toList_ofList, hstart, List.all_eq_true.1 List.all_takeWhile⟩
      have hend : ∀ d ∈ (rest.dropWhile isIdentifierRest).head?, isIdentifierRest d = false := by
        intro d hd
        have := List.head?_dropWhile_not isIdentifierRest rest
        rw [Option.mem_def.1 hd] at this
        simpa using this
      refine ⟨c :: rest.takeWhile isIdentifierRest, ?_, List.cons_ne_nil _ _, ?_, rfl⟩
      · exact congrArg (c :: ·) List.takeWhile_append_dropWhile.symm
      · have hspelled := Token.SpelledBefore.identifier hname hend
        rwa [String.toList_ofList] at hspelled
    · cases h

theorem readToken_ok (h : readToken c rest loc = .ok reading) (hrest : StartsNoTrivia (c :: rest)) :
    reading.IsAt (c :: rest) loc := by
  unfold readToken at h
  split at h
  case h_12 | h_14 => cases h
  case h_15 => exact readWord_ok h
  case h_8 =>
    cases h
    refine Reading.isAt_ofSpelling (by simp [Token.signs]) fun _ hstar => ?_
    -- A star behind the parenthesis would have opened a comment.
    obtain ⟨tail, rfl⟩ := List.head?_eq_some_iff.1 hstar
    exact hrest.not_comment ⟨tail, rfl⟩
  all_goals
    cases h
    exact Reading.isAt_ofSpelling (by simp [Token.signs]) (by simp)

theorem readWord_error (h : readWord c rest loc = .error fault)
    (hrest : StartsNoTrivia (c :: rest))
    (hsign : ∀ token, ∀ w ∈ Token.signs token, w.head? ≠ some c) : fault.Begins (c :: rest) := by
  unfold readWord at h
  split at h
  · next hquote =>
    split at h
    · next hliteral =>
      cases h
      exact readLiteral_error hliteral hquote
    · cases h
  · next hquote =>
    split at h
    · cases h
    · next hstart =>
      cases h
      exact .strayChar hrest hsign hquote (by simpa using hstart)

theorem readToken_error (h : readToken c rest loc = .error fault)
    (hrest : StartsNoTrivia (c :: rest)) : fault.Begins (c :: rest) := by
  unfold readToken at h
  split at h
  case h_12 hlong hshort =>
    cases h
    refine .incompleteDefine ?_ ?_
    · rintro ⟨tail, rfl⟩
      exact hshort tail rfl
    · rintro ⟨tail, rfl⟩
      exact hlong tail rfl
  case h_14 hdots =>
    cases h
    refine .incompleteEllipsis ?_
    rintro ⟨tail, rfl⟩
    exact hdots tail rfl
  case h_15 =>
    refine readWord_error h hrest fun token w hw hhead => ?_
    cases token <;> grind [Token.signs]
  all_goals cases h

end ReadToken

end Earley
