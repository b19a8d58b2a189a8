/-
  Tokens can be read back from every way to spell them.

  `SpelledOut` says how tokens may be written as a text: each of them in one of its spellings, and
  blanks or comments between them. It does not say what a spelling is followed by, as
  `Token.SpelledBefore` does: that a gap keeps two tokens apart is shown here
  (`Token.SpelledBy.before`).

  The walks of the token stream are followed forwards. A piece of trivia is dropped whatever follows
  it (`skipTrivia_piece`), a spelling in front of a gap is read as its token
  (`exists_readToken`), and so a text that is spelled out gives its tokens one after another
  (`tokens_read_back`). The forms in which messages name tokens are spellings, too, unless a literal
  holds a character that is printed by its number.
-/
import Earley.Proofs.Ebnf.TokenStream
import Mathlib.Data.List.Forall2

namespace Earley

/-! ### Ways to spell -/

/-- The letters behind a backslash in a literal, and what they stand for. -/
def escapes : List (Char × Char) :=
  [('n', '\n'), ('t', '\t'), ('r', '\r'), ('0', '\x00'), ('\\', '\\'), ('\'', '\''), ('"', '"')]

/-- Tells how a character may be written between two quotes: for itself, unless it is a backslash or
the quote, or by a backslash and a letter that stands for it. -/
inductive WritesChar (quote c : Char) : List Char → Prop
  | raw (hquote : c ≠ quote) (hbackslash : c ≠ '\\') : WritesChar quote c [c]
  | escape {d : Char} (h : (d, c) ∈ escapes) : WritesChar quote c ['\\', d]

/-- Tells that characters are one of the spellings of a token. -/
inductive Token.SpelledBy : Token → List Char → Prop
  | identifier (name : String) : SpelledBy (.identifier name) name.toList
  | literal {quote : Char} {text : List Char} {forms : List (List Char)}
      (hquote : quote = '"' ∨ quote = '\'') (h : List.Forall₂ (WritesChar quote) text forms) :
      SpelledBy (.literal (String.ofList text)) (quote :: (forms.flatten ++ [quote]))
  | sign {token : Token} {w : List Char} (h : w ∈ token.signs) : SpelledBy token w

/-- Tells that characters are a piece of trivia: a blank, a comment up to the end of its line, or a
block comment that is closed by the first mark behind its opening. -/
inductive IsTrivia : List Char → Prop
  | blank {c : Char} (h : c ∈ [' ', '\n', '\r', '\t', '\x0b', '\x0c']) : IsTrivia [c]
  | line {comment : List Char} (h : '\n' ∉ comment) : IsTrivia ('#' :: (comment ++ ['\n']))
  | block {comment : List Char} (h : ¬closeComment <:+: comment) :
      IsTrivia ('(' :: '*' :: (comment ++ closeComment))

/-- Tells that characters are pieces of trivia one after another. -/
inductive IsGap : List Char → Prop
  | nil : IsGap []
  | cons {piece gap : List Char} (hpiece : IsTrivia piece) (h : IsGap gap) : IsGap (piece ++ gap)

/-- Tells that a text spells tokens one after another, with a gap between any two of them. -/
inductive SpelledOut : List Token → List Char → Prop
  | nil : SpelledOut [] []
  | last {token : Token} {w : List Char} (hw : token.SpelledBy w) : SpelledOut [token] w
  | cons {token : Token} {tokens : List Token} {w gap text : List Char} (hw : token.SpelledBy w)
      (hgap : IsGap gap) (hne : gap ≠ []) (h : SpelledOut tokens text) :
      SpelledOut (token :: tokens) (w ++ (gap ++ text))

/-! ### Trivia is dropped -/

/-- A blank is no part of an identifier, and no comment goes on with it. -/
theorem isBlank_of_mem {c : Char} (h : c ∈ [' ', '\n', '\r', '\t', '\x0b', '\x0c']) :
    isBlank c = true ∧ isIdentifierRest c = false ∧ c ≠ '(' ∧ c ≠ '*' := by
  simp only [List.mem_cons, List.not_mem_nil, or_false] at h
  rcases h with rfl | rfl | rfl | rfl | rfl | rfl <;> decide

theorem skipTrivia_line {comment : List Char} (h : '\n' ∉ comment) (cs : List Char)
    (loc : Location) :
    skipTrivia .line (comment ++ '\n' :: cs) loc =
      skipTrivia .plain cs (loc.advanceAll (comment ++ ['\n'])) := by
  induction comment generalizing loc with
  | nil => rfl
  | cons c comment ih =>
    rw [List.mem_cons, not_or] at h
    rw [List.cons_append, skipTrivia, if_neg (Ne.symm h.1), ih h.2]
    rfl

theorem skipTrivia_block {comment : List Char} (h : ¬closeComment <:+: comment)
    (opened : Location) (cs : List Char) (loc : Location) :
    skipTrivia (.block opened) (comment ++ (closeComment ++ cs)) loc =
      skipTrivia .plain cs (loc.advanceAll (comment ++ closeComment)) := by
  induction comment generalizing loc with
  | nil => rfl
  | cons c comment ih =>
    rw [List.infix_cons_iff, not_or] at h
    rw [List.cons_append, skipTrivia, ih h.2]
    · rfl
    · -- The mark that closes the comment does not begin at this character.
      rintro tail rfl htail
      apply h.1
      cases comment with
      | nil => cases htail
      | cons d comment =>
        cases htail
        exact ⟨comment, rfl⟩

/-- A piece of trivia is dropped, whatever follows it. -/
theorem skipTrivia_piece {piece : List Char} (h : IsTrivia piece) (cs : List Char)
    (loc : Location) :
    skipTrivia .plain (piece ++ cs) loc = skipTrivia .plain cs (loc.advanceAll piece) := by
  cases h with
  | @blank c h =>
    obtain ⟨hblank, -, hparen, -⟩ := isBlank_of_mem h
    rw [List.singleton_append, skipTrivia, if_pos hblank]
    · rfl
    · rintro tail rfl -
      exact hparen rfl
  | line h =>
    rw [List.cons_append, List.append_assoc, List.singleton_append]
    exact skipTrivia_line h cs (loc.advance '#')
  | block h =>
    rw [List.cons_append, List.cons_append, List.append_assoc]
    exact skipTrivia_block h loc cs ((loc.advance '(').advance '*')

theorem skipTrivia_gap {gap : List Char} (h : IsGap gap) (cs : List Char) (loc : Location) :
    skipTrivia .plain (gap ++ cs) loc = skipTrivia .plain cs (loc.advanceAll gap) := by
  induction h generalizing loc with
  | nil => rfl
  | cons hpiece _ ih =>
    rw [List.append_assoc, skipTrivia_piece hpiece, ih, Location.advanceAll_append]

/-- Where no trivia begins, nothing is dropped. -/
theorem skipTrivia_of_startsNoTrivia {rest : List Char} (h : StartsNoTrivia rest)
    (loc : Location) : skipTrivia .plain rest loc = .ok (rest, loc) := by
  cases rest with
  | nil => rfl
  | cons c rest =>
    have hblank : isBlank c = false := h.not_blank c rfl
    have hhash : c ≠ '#' := fun heq => h.not_hash (congrArg some heq)
    rw [skipTrivia]
    · simp [hblank, hhash]
    · rintro tail rfl rfl
      exact h.not_comment ⟨tail, rfl⟩

/-! ### A gap keeps tokens apart -/

/-- Tells that a text does not go on with a token in front of it. -/
def Detached (rest : List Char) : Prop :=
  ∀ c ∈ rest.head?, isIdentifierRest c = false ∧ c ≠ '*'

theorem detached_nil : Detached [] := by
  simp [Detached]

theorem IsTrivia.detached {piece : List Char} (h : IsTrivia piece) (rest : List Char) :
    Detached (piece ++ rest) := by
  cases h with
  | blank h =>
    obtain ⟨-, hrest, -, hstar⟩ := isBlank_of_mem h
    rintro _ ⟨⟩
    exact ⟨hrest, hstar⟩
  | line | block =>
    rintro _ ⟨⟩
    decide

theorem IsGap.detached {gap : List Char} (h : IsGap gap) (hne : gap ≠ []) (rest : List Char) :
    Detached (gap ++ rest) := by
  cases h with
  | nil => exact absurd rfl hne
  | cons hpiece _ =>
    rw [List.append_assoc]
    exact hpiece.detached _

theorem unescape_eq_some_iff {d c : Char} : unescape d = some c ↔ (d, c) ∈ escapes := by
  constructor
  · intro h
    unfold unescape at h
    split at h <;> cases h <;> decide
  · intro h
    have hall : ∀ p ∈ escapes, unescape p.1 = some p.2 := by decide
    exact hall _ h

/-- Characters that are written one by one spell their text. -/
theorem spellsText_flatten {quote : Char} {text : List Char} {forms : List (List Char)}
    (h : List.Forall₂ (WritesChar quote) text forms) : SpellsText quote text forms.flatten := by
  induction h with
  | nil => exact .nil
  | cons hform _ ih =>
    cases hform with
    | raw hquote hbackslash => exact .plain hquote hbackslash ih
    | escape h => exact .escape (unescape_eq_some_iff.2 h) ih

/-- Every spelling of a token is one in front of a text that does not go on with it. -/
theorem Token.SpelledBy.before {token : Token} {w rest : List Char} (h : token.SpelledBy w)
    (hnamed : token.WellNamed) (hrest : Detached rest) : token.SpelledBefore rest w := by
  cases h with
  | identifier name => exact .identifier (hnamed name rfl) fun c hc => (hrest c hc).1
  | literal hquote hforms => exact .literal hquote (spellsText_flatten hforms)
  | sign h => exact .sign h fun _ hstar => (hrest '*' hstar).2 rfl

/-! ### A spelling is read as its token -/

theorem readLiteral_cons {quote c : Char} (hquote : c ≠ quote) (hbackslash : c ≠ '\\')
    (taken cs : List Char) (loc : Location) :
    readLiteral quote taken (c :: cs) loc =
      readLiteral quote (c :: taken) cs (loc.advance c) := by
  rw [readLiteral.eq_def]
  simp only [hquote, hbackslash, if_false]

theorem readLiteral_backslash {quote d e : Char} (hquote : '\\' ≠ quote)
    (hd : unescape d = some e) (taken cs : List Char) (loc : Location) :
    readLiteral quote taken ('\\' :: d :: cs) loc =
      readLiteral quote (e :: taken) cs ((loc.advance '\\').advance d) := by
  rw [readLiteral.eq_def]
  simp only [hquote, hd, if_false, if_true]

theorem readLiteral_of_spellsText {quote : Char} {text w : List Char}
    (h : SpellsText quote text w) (hquote : '\\' ≠ quote) (taken rest : List Char)
    (loc : Location) :
    readLiteral quote taken (w ++ quote :: rest) loc =
      .ok (String.ofList (taken.reverse ++ text), rest, loc.advanceAll (w ++ [quote])) := by
  induction h generalizing taken loc with
  | nil =>
    rw [List.nil_append, readLiteral.eq_def, List.append_nil]
    simp only [if_true]
    rfl
  | plain hne hbackslash _ ih =>
    rw [List.cons_append, readLiteral_cons hne hbackslash, ih, List.reverse_cons,
      List.append_assoc]
    rfl
  | escape hd _ ih =>
    rw [List.cons_append, List.cons_append, readLiteral_backslash hquote hd, ih,
      List.reverse_cons, List.append_assoc]
    rfl

theorem startsNoTrivia_cons {c : Char} {rest : List Char} (hblank : isBlank c = false)
    (hhash : c ≠ '#') (hparen : c = '(' → rest.head? ≠ some '*') : StartsNoTrivia (c :: rest) where
  not_blank := by
    rintro _ ⟨⟩
    exact hblank
  not_hash heq := hhash (Option.some.inj heq)
  not_comment := by
    rintro ⟨tail, htail⟩
    cases htail
    exact hparen rfl rfl

/-- Most characters begin no trivia, whatever follows. -/
theorem startsNoTrivia_of_ne {c : Char} (hblank : isBlank c = false) (hhash : c ≠ '#')
    (hparen : c ≠ '(') (rest : List Char) : StartsNoTrivia (c :: rest) :=
  startsNoTrivia_cons hblank hhash fun hc => absurd hc hparen

theorem readToken_of_isIdentifierStart {c : Char} (h : isIdentifierStart c = true)
    (rest : List Char) (loc : Location) : readToken c rest loc = readWord c rest loc := by
  unfold readToken
  -- No sign begins with the first character of an identifier.
  split <;> first | rfl | exact absurd h (by decide)

theorem startsNoTrivia_of_isIdentifierStart {c : Char} (h : isIdentifierStart c = true)
    (rest : List Char) : StartsNoTrivia (c :: rest) := by
  refine startsNoTrivia_of_ne ?_ ?_ ?_ rest
  · rw [Bool.eq_false_iff]
    intro hblank
    simp only [isBlank, Bool.or_eq_true, beq_iff_eq] at hblank
    rcases hblank with ((((rfl | rfl) | rfl) | rfl) | rfl) | rfl <;> exact absurd h (by decide)
  · rintro rfl
    exact absurd h (by decide)
  · rintro rfl
    exact absurd h (by decide)

/-- An identifier in front of what cannot be part of it is read to its end. -/
theorem readWord_of_isIdentifier {c : Char} {cs rest : List Char}
    (hstart : isIdentifierStart c = true) (hcs : ∀ d ∈ cs, isIdentifierRest d = true)
    (hend : ∀ d ∈ rest.head?, isIdentifierRest d = false) (loc : Location) :
    readWord c (cs ++ rest) loc =
      .ok ⟨.identifier (String.ofList (c :: cs)), rest, loc.advanceAll (c :: cs)⟩ := by
  have hquote : ¬(c = '"' ∨ c = '\'') := by
    rintro (rfl | rfl) <;> exact absurd hstart (by decide)
  have htake : rest.takeWhile isIdentifierRest = [] := by
    cases rest with
    | nil => rfl
    | cons d rest => rw [List.takeWhile_cons, hend d rfl]; rfl
  have hdrop : rest.dropWhile isIdentifierRest = rest := by
    have happend := List.takeWhile_append_dropWhile (p := isIdentifierRest) (l := rest)
    rwa [htake, List.nil_append] at happend
  rw [readWord, if_neg hquote, if_pos hstart, List.takeWhile_append_of_pos hcs,
    List.dropWhile_append_of_pos hcs, htake, hdrop, List.append_nil]
  rfl

theorem exists_readToken_of_mem_signs {token : Token} {w rest : List Char} (h : w ∈ token.signs)
    (hparen : token = .openParen → rest.head? ≠ some '*') :
    ∃ c cs, w = c :: cs ∧ StartsNoTrivia (c :: (cs ++ rest)) ∧
      ∀ loc, readToken c (cs ++ rest) loc = .ok ⟨token, rest, loc.advanceAll w⟩ := by
  cases token with
  | identifier | literal => exact absurd h List.not_mem_nil
  | define =>
    simp only [Token.signs, List.mem_cons, List.not_mem_nil, or_false] at h
    rcases h with rfl | rfl | rfl <;>
      exact ⟨_, _, rfl, startsNoTrivia_of_ne rfl (by decide) (by decide) _, fun _ => rfl⟩
  | openParen =>
    obtain rfl := List.mem_singleton.1 h
    exact ⟨_, _, rfl, startsNoTrivia_cons rfl (by decide) fun _ => hparen rfl, fun _ => rfl⟩
  | _ =>
    obtain rfl := List.mem_singleton.1 h
    exact ⟨_, _, rfl, startsNoTrivia_of_ne rfl (by decide) (by decide) _, fun _ => rfl⟩

/-- A spelling of a token begins with no trivia, and is read as the token. -/
theorem exists_readToken {token : Token} {w rest : List Char} (h : token.SpelledBefore rest w) :
    ∃ c cs, w = c :: cs ∧ StartsNoTrivia (c :: (cs ++ rest)) ∧
      ∀ loc, readToken c (cs ++ rest) loc = .ok ⟨token, rest, loc.advanceAll w⟩ := by
  cases h with
  | @identifier name hname hend =>
    obtain ⟨c, cs, hlist, hstart, hcs⟩ := hname
    refine ⟨c, cs, hlist, startsNoTrivia_of_isIdentifierStart hstart _, fun loc => ?_⟩
    rw [readToken_of_isIdentifierStart hstart, readWord_of_isIdentifier hstart hcs hend, ← hlist,
      String.ofList_toList]
  | @literal quote text w hquote htext =>
    refine ⟨quote, w ++ [quote], rfl, ?_, fun loc => ?_⟩
    · rcases hquote with rfl | rfl <;> exact startsNoTrivia_of_ne rfl (by decide) (by decide) _
    · have hword : readToken quote (w ++ [quote] ++ rest) loc =
          readWord quote (w ++ [quote] ++ rest) loc := by
        rcases hquote with rfl | rfl <;> rfl
      have hbackslash : '\\' ≠ quote := by
        rcases hquote with rfl | rfl <;> decide
      rw [hword, readWord, if_pos hquote, List.append_assoc, List.singleton_append,
        readLiteral_of_spellsText htext hbackslash]
      rfl
  | sign hsign hparen => exact exists_readToken_of_mem_signs hsign hparen

/-! ### Tokens one after another -/

namespace TokenStream

/-- A stream in front of a gap and a spelling gives the token, and goes on behind it. -/
theorem exists_next {gap w rest : List Char} {token : Token} (hgap : IsGap gap)
    (h : token.SpelledBefore rest w) (loc : Location) :
    ∃ loc' loc'', next ⟨gap ++ (w ++ rest), loc, false⟩ =
      (some (.ok ⟨token, loc'⟩), ⟨rest, loc'', false⟩) := by
  obtain ⟨c, cs, rfl, hstart, hread⟩ := exists_readToken h
  refine ⟨loc.advanceAll gap, (loc.advanceAll gap).advanceAll (c :: cs), ?_⟩
  simp only [next, Bool.false_eq_true, if_false]
  rw [skipTrivia_gap hgap, List.cons_append, skipTrivia_of_startsNoTrivia hstart]
  simp only [hread]

theorem next_of_gap {gap : List Char} (h : IsGap gap) (loc : Location) :
    next ⟨gap, loc, false⟩ = (none, ⟨[], loc.advanceAll gap, false⟩) := by
  have hskip := skipTrivia_gap h [] loc
  rw [List.append_nil] at hskip
  simp only [next, Bool.false_eq_true, if_false]
  rw [hskip]
  rfl

/-- Tells that a stream gives these tokens, wherever they stand, and no failure. -/
def Yields (s : TokenStream) (tokens : List Token) : Prop :=
  ∃ lexemes, s.Gives lexemes none ∧ lexemes.map Lexeme.token = tokens

theorem yields_cons {s s' : TokenStream} {lexeme : Lexeme} {tokens : List Token}
    (hnext : s.next = (some (.ok lexeme), s')) (h : s'.Yields tokens) :
    s.Yields (lexeme.token :: tokens) := by
  obtain ⟨lexemes, hgives, rfl⟩ := h
  exact ⟨lexeme :: lexemes, gives_of_next hnext hgives, rfl⟩

theorem yields_of_gap {gap : List Char} (h : IsGap gap) (loc : Location) :
    Yields ⟨gap, loc, false⟩ [] :=
  ⟨[], gives_nil (next_of_gap h loc) (next_of_rest_eq_nil _), rfl⟩

/-- The stream of a text that is spelled out gives the tokens, also behind a gap. -/
theorem yields_of_spelledOut {tokens : List Token} {text : List Char} (h : SpelledOut tokens text)
    (hnamed : ∀ token ∈ tokens, token.WellNamed) {gap : List Char} (hgap : IsGap gap)
    (loc : Location) : Yields ⟨gap ++ text, loc, false⟩ tokens := by
  induction h generalizing gap loc with
  | nil =>
    rw [List.append_nil]
    exact yields_of_gap hgap loc
  | @last token w hw =>
    obtain ⟨loc', loc'', hnext⟩ :=
      exists_next hgap (hw.before (hnamed token (List.mem_singleton_self _)) detached_nil) loc
    rw [List.append_nil] at hnext
    exact yields_cons hnext (yields_of_gap .nil _)
  | @cons token tokens w gap' text hw hgap' hne _ ih =>
    obtain ⟨hnamed, hrest⟩ := List.forall_mem_cons.1 hnamed
    obtain ⟨loc', loc'', hnext⟩ :=
      exists_next hgap (hw.before hnamed (hgap'.detached hne text)) loc
    exact yields_cons hnext (ih hrest hgap' _)

end TokenStream

/-! ### The forms in messages -/

namespace Token

theorem writesChar_escape {c : Char} (h : ¬['\\', 'u', '\x7b'] <+: Quote.double.escape c) :
    WritesChar '"' c (Quote.double.escape c) := by
  cases hletter : Quote.double.letter c with
  | some e =>
    rw [Quote.escape, Quote.escapeBy_of_letter hletter]
    exact .escape (unescape_eq_some_iff.1 (Quote.unescape_of_letter hletter))
  | none =>
    obtain ⟨hbackslash, hquote⟩ := Quote.ne_of_letter_eq_none hletter
    rw [Quote.escape, Quote.escapeBy_of_letter_eq_none hletter, Quote.plainBy] at h ⊢
    split at h
    · next hvisible =>
      rw [if_pos hvisible]
      exact .raw hquote hbackslash
    · exact absurd ⟨_, rfl⟩ h

/-- Tells that the form of a token shows each character of a literal by itself or by a letter, and
none by its number. -/
def Legible (token : Token) : Prop :=
  ∀ text, token = .literal text →
    ∀ c ∈ text.toList, ¬['\\', 'u', '\x7b'] <+: Quote.double.escape c

/-- The form in which messages name a token is one of its spellings. -/
theorem spelledBy_display {token : Token} (h : token.Legible) :
    token.SpelledBy token.display.toList := by
  cases token with
  | identifier name => exact .identifier name
  | literal text =>
    have hforms : List.Forall₂ (WritesChar '"') text.toList
        (text.toList.map Quote.double.escape) := by
      rw [List.forall₂_map_right_iff, List.forall₂_same]
      exact fun c hc => writesChar_escape (h text rfl c hc)
    have hspelled := SpelledBy.literal (Or.inl rfl) hforms
    rw [String.ofList_toList] at hspelled
    rw [display, quoteText, quoteTextBy, String.toList_ofList, Quote.encloseBy, List.flatMap_def]
    exact hspelled
  | _ => exact .sign (by decide)

end Token

/-- The forms of tokens with a space between any two of them spell the tokens out. -/
theorem spelledOut_display {tokens : List Token} (h : ∀ token ∈ tokens, token.Legible) :
    SpelledOut tokens (" ".intercalate (tokens.map Token.display)).toList := by
  induction tokens with
  | nil => exact .nil
  | cons token tokens ih =>
    obtain ⟨htoken, htokens⟩ := List.forall_mem_cons.1 h
    have hspelled := Token.spelledBy_display htoken
    cases tokens with
    | nil => simpa using SpelledOut.last hspelled
    | cons token' tokens =>
      have hgap : IsGap [' '] := .cons (.blank (List.mem_cons_self ..)) .nil
      rw [List.map_cons, List.map_cons, String.intercalate_cons_cons, String.toList_append,
        String.toList_append, List.append_assoc]
      exact .cons hspelled hgap (List.cons_ne_nil _ _) (ih htokens)

/-- **Tokens are read back from every spelling.** Let the identifiers among some tokens be well
formed. However the tokens are spelled one after another, with gaps of blanks and comments between
them, the token stream of the text gives these tokens and no failure; a gap in front of them makes
no difference. So it does for the forms in which messages name the tokens, with a space between any
two of them, unless the form of a literal shows a character by its number. -/
theorem tokens_read_back {tokens : List Token} (hnamed : ∀ token ∈ tokens, token.WellNamed) :
    (∀ gap text, IsGap gap → SpelledOut tokens text →
      (TokenStream.ofChars (gap ++ text)).Yields tokens) ∧
    ((∀ token ∈ tokens, token.Legible) →
      (TokenStream.ofChars (" ".intercalate (tokens.map Token.display)).toList).Yields tokens) := by
  refine ⟨fun gap text hgap htext => ?_, fun hlegible => ?_⟩
  · exact TokenStream.yields_of_spelledOut htext hnamed hgap _
  · exact TokenStream.yields_of_spelledOut (spelledOut_display hlegible) hnamed .nil _

/-- Tokens whose spellings share their first characters with comments and with each other. -/
def trickyTokens : List Token :=
  [.identifier "_a", .define, .openParen, .literal "*'\\\n", .closeParen]

/-- A text of these tokens with a quote and a star in comments. -/
def trickyText : String := "_a(*\"*)::=#'\n( '*\\'\\\\\n'(***))"

theorem wellNamed_trickyTokens : ∀ token ∈ trickyTokens, token.WellNamed := by
  rintro token htoken name rfl
  simp only [trickyTokens, List.mem_cons, reduceCtorEq, List.not_mem_nil, or_false,
    Token.identifier.injEq] at htoken
  subst htoken
  exact ⟨'_', ['a'], rfl, by decide, List.forall_mem_singleton.2 rfl⟩

theorem spelledOut_trickyText : SpelledOut trickyTokens trickyText.toList := by
  have hcomment : IsGap ['(', '*', '"', '*', ')'] :=
    .cons (@IsTrivia.block ['"'] (by decide)) .nil
  have hline : IsGap ['#', '\'', '\n'] := .cons (@IsTrivia.line ['\''] (by decide)) .nil
  have hspace : IsGap [' '] := .cons (.blank (by decide)) .nil
  have hstar : IsGap ['(', '*', '*', '*', ')'] := .cons (@IsTrivia.block ['*'] (by decide)) .nil
  have hliteral : List.Forall₂ (WritesChar '\'') ['*', '\'', '\\', '\n']
      [['*'], ['\\', '\''], ['\\', '\\'], ['\n']] :=
    .cons (.raw (by decide) (by decide)) (.cons (.escape (by decide)) (.cons (.escape (by decide))
      (.cons (.raw (by decide) (by decide)) .nil)))
  have hclose : SpelledOut [.closeParen] [')'] := .last (.sign (by decide))
  have hdefine : Token.define.SpelledBy [':', ':', '='] := .sign (by decide)
  have hopen : Token.openParen.SpelledBy ['('] := .sign (by decide)
  exact .cons (.identifier "_a") hcomment (by decide) (.cons hdefine hline (by decide)
    (.cons hopen hspace (by decide) (.cons (.literal (Or.inr rfl) hliteral) hstar (by decide)
      hclose)))

theorem legible_trickyTokens : ∀ token ∈ trickyTokens, token.Legible := by
  rintro token htoken text rfl
  simp only [trickyTokens, List.mem_cons, reduceCtorEq, List.not_mem_nil, or_false, false_or,
    Token.literal.injEq] at htoken
  subst htoken
  have hall : ['*', '\'', '\\', '\n'].all
      (fun c => decide ¬['\\', 'u', '\x7b'] <+: Quote.double.escape c) = true := by decide
  exact fun c hc => of_decide_eq_true (List.all_eq_true.1 hall c hc)

theorem tokens_read_back_tricky :
    (∀ token ∈ trickyTokens, token.WellNamed) ∧
      IsGap [] ∧ SpelledOut trickyTokens trickyText.toList ∧
      (∀ token ∈ trickyTokens, token.Legible) ∧
      (TokenStream.ofChars trickyText.toList).Yields trickyTokens ∧
      (TokenStream.ofChars
        (" ".intercalate (trickyTokens.map Token.display)).toList).Yields trickyTokens := by
  obtain ⟨hspelled, hdisplay⟩ := tokens_read_back wellNamed_trickyTokens
  exact ⟨wellNamed_trickyTokens, .nil, spelledOut_trickyText, legible_trickyTokens,
    hspelled [] trickyText.toList .nil spelledOut_trickyText, hdisplay legible_trickyTokens⟩

end Earley
