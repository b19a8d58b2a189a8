/-
  `TokenStream` — splitting a grammar text into tokens.

  Between tokens stands trivia: blanks, comments from `#` to the end of the line, and comments
  between `(*` and `*)`. `skipTrivia` drops it in one walk, which keeps in its mode whether it is
  inside a comment. Then one token is read from the characters at hand (`readToken`); a token of
  several characters is as long as it can be. The location is moved over exactly the characters
  dropped, so each token carries the place of its first character.

  The first misspelling ends the stream, as the end of the text does: from there on `next` gives
  nothing. `collect` runs a stream to its end.
-/
import Earley.Ebnf.Token
import Earley.Text.Blank
import Earley.Text.Identifier

namespace Earley

/-! ### Trivia -/

/-- Where a walk over trivia stands: between comments, in a comment that ends with its line, or in
a block comment, which remembers where it was opened. -/
inductive TriviaMode
  | plain
  | line
  | block (opened : Location)

/-- Drops blanks and comments, starting in the given mode; gives the rest and its location. -/
def skipTrivia : TriviaMode → List Char → Location → Except TokenError (List Char × Location)
  | .plain, '(' :: '*' :: rest, loc =>
    skipTrivia (.block loc) rest ((loc.advance '(').advance '*')
  | .plain, c :: rest, loc =>
    if isBlank c then skipTrivia .plain rest (loc.advance c)
    else if c = '#' then skipTrivia .line rest (loc.advance c)
    else .ok (c :: rest, loc)
  | .line, c :: rest, loc =>
    skipTrivia (if c = '\n' then .plain else .line) rest (loc.advance c)
  | .block _, '*' :: ')' :: rest, loc =>
    skipTrivia .plain rest ((loc.advance '*').advance ')')
  | .block opened, c :: rest, loc => skipTrivia (.block opened) rest (loc.advance c)
  | .block opened, [], _ => .error (.ofMisspelling .openComment opened)
  | _, [], loc => .ok ([], loc)

/-! ### Literals -/

/-- The character that a backslash and `c` stand for in a literal. -/
def unescape : Char → Option Char
  | 'n' => some '\n'
  | 't' => some '\t'
  | 'r' => some '\r'
  | '0' => some '\x00'
  | '\\' => some '\\'
  | '\'' => some '\''
  | '"' => some '"'
  | _ => none

/-- The rest of a literal behind its opening `quote`: its text, of which `taken` was read before,
the last character first; what follows it; and the location there. -/
def readLiteral (quote : Char) (taken : List Char) :
    List Char → Location → Except Misspelling (String × List Char × Location)
  | [], _ => .error .openLiteral
  | c :: rest, loc =>
    if c = quote then .ok (String.ofList taken.reverse, rest, loc.advance c)
    else if c = '\\' then
      match rest with
      | [] => .error .openLiteral
      | d :: rest =>
        match unescape d with
        | none => .error (.unknownEscape d)
        | some e => readLiteral quote (e :: taken) rest ((loc.advance c).advance d)
    else readLiteral quote (c :: taken) rest (loc.advance c)

/-! ### One token -/

/-- A token read at the head of some text, with the text behind it and the location there. -/
structure Reading where
  token : Token
  rest : List Char
  location : Location

/-- The reading of a token that is spelled by the characters `spelling`. -/
def Reading.ofSpelling (token : Token) (spelling rest : List Char) (loc : Location) : Reading :=
  ⟨token, rest, loc.advanceAll spelling⟩

/-- Reads the literal or identifier at the head of `c :: rest`, where `c` stands at `loc`. -/
def readWord (c : Char) (rest : List Char) (loc : Location) : Except Misspelling Reading :=
  if c = '"' ∨ c = '\'' then
    match readLiteral c [] rest (loc.advance c) with
    | .error fault => .error fault
    | .ok (text, rest, loc) => .ok ⟨.literal text, rest, loc⟩
  else if isIdentifierStart c then
    let name := c :: rest.takeWhile isIdentifierRest
    .ok (.ofSpelling (.identifier (String.ofList name)) name (rest.dropWhile isIdentifierRest) loc)
  else .error (.strayChar c)

/-- Reads the token at the head of `c :: rest`, where `c` stands at `loc`. -/
def readToken (c : Char) (rest : List Char) (loc : Location) : Except Misspelling Reading :=
  match c, rest with
  | '=', _ => .ok (.ofSpelling .define ['='] rest loc)
  | '|', _ => .ok (.ofSpelling .bar ['|'] rest loc)
  | ';', _ => .ok (.ofSpelling .semicolon [';'] rest loc)
  | '[', _ => .ok (.ofSpelling .openBracket ['['] rest loc)
  | ']', _ => .ok (.ofSpelling .closeBracket [']'] rest loc)
  | '\x7b', _ => .ok (.ofSpelling .openBrace ['\x7b'] rest loc)
  | '\x7d', _ => .ok (.ofSpelling .closeBrace ['\x7d'] rest loc)
  | '(', _ => .ok (.ofSpelling .openParen ['('] rest loc)
  | ')', _ => .ok (.ofSpelling .closeParen [')'] rest loc)
  | ':', ':' :: '=' :: rest => .ok (.ofSpelling .define [':', ':', '='] rest loc)
  | ':', '=' :: rest => .ok (.ofSpelling .define [':', '='] rest loc)
  | ':', _ => .error .incompleteDefine
  | '.', '.' :: '.' :: rest => .ok (.ofSpelling .ellipsis ['.', '.', '.'] rest loc)
  | '.', _ => .error .incompleteEllipsis
  | c, rest => readWord c rest loc

/-! ### The stream -/

/-- A grammar text that is being split: what is left of it, the location there, and whether an
earlier part of it was misspelled. -/
structure TokenStream where
  rest : List Char
  location : Location
  failed : Bool

namespace TokenStream

/-- The stream of a whole text. -/
def ofChars (text : List Char) : TokenStream := ⟨text, .origin, false⟩

/-- The next token or misspelling, if there is one, and the stream behind it. -/
def next (s : TokenStream) : Option (Except TokenError Lexeme) × TokenStream :=
  if s.failed then (none, s) else
    match skipTrivia .plain s.rest s.location with
    | .error e => (some (.error e), { s with failed := true })
    | .ok ([], loc) => (none, ⟨[], loc, false⟩)
    | .ok (c :: rest, loc) =>
      match readToken c rest loc with
      | .error fault => (some (.error (.ofMisspelling fault loc)), { s with failed := true })
      | .ok reading =>
        (some (.ok ⟨reading.token, loc⟩), ⟨reading.rest, reading.location, false⟩)

/-! ### Every token shortens the text -/

theorem length_skipTrivia_le {mode : TriviaMode} {cs rest : List Char} {loc loc' : Location}
    (h : skipTrivia mode cs loc = .ok (rest, loc')) : rest.length ≤ cs.length := by
  fun_induction skipTrivia mode cs loc with
  | case1 _ _ ih => exact Nat.le_succ_of_le (Nat.le_succ_of_le (ih h))
  | case2 _ _ _ _ _ ih => exact Nat.le_succ_of_le (ih h)
  | case3 _ _ _ _ ih => exact Nat.le_succ_of_le (ih h)
  | case4 => cases h; exact Nat.le_refl _
  | case5 _ _ _ ih => exact Nat.le_succ_of_le (ih h)
  | case6 _ _ _ ih => exact Nat.le_succ_of_le (Nat.le_succ_of_le (ih h))
  | case7 _ _ _ _ _ ih => exact Nat.le_succ_of_le (ih h)
  | case8 => cases h
  | case9 => cases h; exact Nat.le_refl _

theorem length_readLiteral_lt {quote : Char} {taken cs rest : List Char} {loc loc' : Location}
    {text : String} (h : readLiteral quote taken cs loc = .ok (text, rest, loc')) :
    rest.length < cs.length := by
  fun_induction readLiteral quote taken cs loc with
  | case1 => cases h
  | case2 => cases h; exact Nat.lt_succ_self _
  | case3 => cases h
  | case4 => cases h
  | case5 _ _ _ _ _ _ _ ih => exact Nat.lt_succ_of_lt (Nat.lt_succ_of_lt (ih h))
  | case6 _ _ _ _ _ _ ih => exact Nat.lt_succ_of_lt (ih h)

theorem length_readWord_le {c : Char} {rest : List Char} {loc : Location} {reading : Reading}
    (h : readWord c rest loc = .ok reading) : reading.rest.length ≤ rest.length := by
  unfold readWord at h
  split at h
  · split at h
    · cases h
    · rename_i hliteral
      cases h
      exact Nat.le_of_lt (length_readLiteral_lt hliteral)
  · split at h
    · cases h
      exact (List.dropWhile_suffix _).length_le
    · cases h

theorem length_readToken_le {c : Char} {rest : List Char} {loc : Location} {reading : Reading}
    (h : readToken c rest loc = .ok reading) : reading.rest.length ≤ rest.length := by
  unfold readToken at h
  split at h
  case h_12 | h_14 => cases h
  case h_15 => exact length_readWord_le h
  all_goals
    cases h
    simp only [Reading.ofSpelling, List.length_cons]
    omega

/-- What is left of a stream behind a token is shorter than before. -/
theorem length_rest_next_lt {s s' : TokenStream} {lexeme : Lexeme}
    (h : s.next = (some (.ok lexeme), s')) : s'.rest.length < s.rest.length := by
  unfold next at h
  split at h
  · cases h
  · split at h
    · cases h
    · cases h
    · rename_i c rest loc htrivia
      have hle := length_skipTrivia_le htrivia
      split at h
      · cases h
      · rename_i reading hread
        cases h
        exact Nat.lt_of_le_of_lt (length_readToken_le hread) hle

/-! ### Whole texts -/

/-- All that a stream gives until it ends: the tokens in order, the misspelling that ended it, if
one did, and the stream at its end. -/
structure Collected where
  lexemes : List Lexeme
  failure : Option TokenError
  stream : TokenStream

/-- Runs a stream to its end; `taken` holds the tokens read before, the last one first. -/
def collectFrom (taken : List Lexeme) (s : TokenStream) : Collected :=
  match h : s.next with
  | (none, s') => ⟨taken.reverse, none, s'⟩
  | (some (.error e), s') => ⟨taken.reverse, some e, s'⟩
  | (some (.ok lexeme), s') =>
    have : s'.rest.length < s.rest.length := length_rest_next_lt h
    collectFrom (lexeme :: taken) s'
termination_by s.rest.length

/-- Runs a stream to its end. -/
def collect (s : TokenStream) : Collected := s.collectFrom []

end TokenStream

/-- The tokens of a grammar text, or its first misspelling. -/
def tokenize (text : List Char) : Except TokenError (List Lexeme) :=
  let collected := (TokenStream.ofChars text).collect
  match collected.failure with
  | some e => .error e
  | none => .ok collected.lexemes

end Earley
