/-
  `Tokenizer` — splitting a grammar text with a rewindable reader.

  The reader is called for what may come next, and takes characters from the text as they are
  asked for. What it has read is its view; to `consume` is to drop the view and to move the
  location over it, so between two tokens the location is that of the reader. Where something is
  misspelled the view is left, and the location stays in front of the token.

  Three loops call the reader: over the trivia in front of a token, to the mark that closes a block
  comment, and over the characters of a literal. Each turn of them moves the reader on.
-/
import Earley.Ebnf.TokenStream
import Earley.Text.Rewindable

namespace Earley

/-! ### Reading parts of a text -/

namespace Rewindable

/-- Moves over a block comment, from behind its opening; tells whether it is closed. -/
def passBlock (r : Rewindable) : Bool × Rewindable :=
  match hend : r.acceptWord ['*', ')'] with
  | (true, moved) => (true, moved)
  | (false, stayed) =>
    match hnext : stayed.next with
    | (none, moved) => (false, moved)
    | (some _, moved) =>
      have : moved.ahead < r.ahead :=
        ((onward_acceptWord hend).beyond (beyond_next hnext)).ahead_lt
      passBlock moved
termination_by r.ahead

/-- A comment that is closed has been passed. -/
theorem beyond_passBlock {r closed : Rewindable} (h : r.passBlock = (true, closed)) :
    Beyond r closed := by
  fun_induction passBlock r with
  | case1 r moved hend =>
    obtain ⟨-, rfl⟩ := Prod.mk.inj h
    exact beyond_acceptWord hend (by decide)
  | case2 => simp at h
  | case3 r stayed hend c moved hnext _ ih =>
    exact ((onward_acceptWord hend).beyond (beyond_next hnext)).onward (ih h).toOnward

/-- Reads a literal from behind its opening `quote`; `taken` are the characters that it is known to
hold, the last one first. -/
def scanLiteral (quote : Char) (taken : List Char) (r : Rewindable) :
    Except Misspelling String × Rewindable :=
  match hnext : r.next with
  | (none, moved) => (.error .openLiteral, moved)
  | (some c, moved) =>
    have : moved.ahead < r.ahead := (beyond_next hnext).ahead_lt
    if c = quote then (.ok (String.ofList taken.reverse), moved)
    else if c = '\\' then
      match hescape : moved.next with
      | (none, last) => (.error .openLiteral, last)
      | (some d, last) =>
        have : last.ahead < r.ahead :=
          ((beyond_next hnext).onward (beyond_next hescape).toOnward).ahead_lt
        match unescape d with
        | none => (.error (.unknownEscape d), last)
        | some e => scanLiteral quote (e :: taken) last
    else scanLiteral quote (c :: taken) moved
termination_by r.ahead

/-- Reads an identifier, which is taken from the reader with its text. -/
def scanName (r : Rewindable) : Except Misspelling Token × Rewindable :=
  match r.acceptIdentifier with
  | (true, moved) =>
    let (name, rest) := moved.extract
    (.ok (.identifier (String.ofList name)), rest)
  | (false, stayed) =>
    let (stray, moved) := stayed.next
    (.error (.strayChar (stray.getD '\x00')), moved)

/-- Reads a literal or an identifier that begins with `c`, for a reader that stands at this `c`. -/
def scanWord (c : Char) (r : Rewindable) : Except Misspelling Token × Rewindable :=
  if c = '"' ∨ c = '\'' then (r.scanLiteral c []).map (Except.map .literal) id
  else r.prev.2.scanName

/-- Reads the rest of a defining sign behind its first colon; a second one may follow. -/
def scanDefine (r : Rewindable) : Except Misspelling Token × Rewindable :=
  match (r.acceptChar ':').2.acceptChar '=' with
  | (true, moved) => (.ok .define, moved)
  | (false, stayed) => (.error .incompleteDefine, stayed)

/-- Reads the rest of the dots of a range behind the first one. -/
def scanEllipsis (r : Rewindable) : Except Misspelling Token × Rewindable :=
  match r.acceptWord ['.', '.'] with
  | (true, moved) => (.ok .ellipsis, moved)
  | (false, stayed) => (.error .incompleteEllipsis, stayed)

/-- Reads the token that begins with `c`, for a reader that stands at this `c`. -/
def scanFrom (c : Char) (r : Rewindable) : Except Misspelling Token × Rewindable :=
  match c with
  | '=' => (.ok .define, r)
  | '|' => (.ok .bar, r)
  | ';' => (.ok .semicolon, r)
  | '[' => (.ok .openBracket, r)
  | ']' => (.ok .closeBracket, r)
  | '\x7b' => (.ok .openBrace, r)
  | '\x7d' => (.ok .closeBrace, r)
  | '(' => (.ok .openParen, r)
  | ')' => (.ok .closeParen, r)
  | ':' => r.scanDefine
  | '.' => r.scanEllipsis
  | c => r.scanWord c

/-- Reads the token that comes next, if one does. -/
def scanToken (r : Rewindable) : Except Misspelling (Option Token) × Rewindable :=
  match r.next with
  | (none, moved) => (.ok none, moved)
  | (some c, moved) => (moved.scanFrom c).map (Except.map some) id

end Rewindable

/-! ### The tokenizer -/

/-- A grammar text that is being split: a reader of it, the location of what the reader has not
dropped, and whether something was misspelled. -/
structure Tokenizer where
  reader : Rewindable
  location : Location
  failed : Bool

namespace Tokenizer

open Rewindable

/-- The tokenizer of a whole text. -/
def ofChars (text : List Char) : Tokenizer := ⟨.ofChars text, .origin, false⟩

/-- The tokenizer with another reader. -/
def withReader (t : Tokenizer) (r : Rewindable) : Tokenizer := { t with reader := r }

/-- Drops what has been read, and moves the location over it. -/
def consume (t : Tokenizer) : Tokenizer :=
  let (read, rest) := t.reader.extract
  { t with reader := rest, location := t.location.advanceAll read }

/-- Drops the trivia in front of a token; gives the error if a block comment is not closed. -/
def skipTrivia (t : Tokenizer) : Option TokenError × Tokenizer :=
  match hblank : t.reader.skipBlanks with
  | (true, moved) =>
    have : moved.ignore.ahead < t.reader.ahead := (beyond_advanceWhile hblank).ahead_ignore_lt
    (t.withReader moved).consume.skipTrivia
  | (false, plain) =>
    match hhash : plain.acceptChar '#' with
    | (true, moved) =>
      match hline : moved.untilAny ['\n'] with
      | (_, line) =>
        have : line.ignore.ahead < t.reader.ahead :=
          ((onward_advanceWhile hblank).beyond
            ((beyond_acceptChar hhash).onward (onward_advanceWhile hline))).ahead_ignore_lt
        (t.withReader line).consume.skipTrivia
    | (false, unmarked) =>
      match hstart : unmarked.acceptWord ['(', '*'] with
      | (true, opened) =>
        match hclose : opened.passBlock with
        | (true, closed) =>
          have : closed.ignore.ahead < t.reader.ahead :=
            (((onward_advanceWhile hblank).trans (onward_acceptChar hhash)).beyond
              ((beyond_acceptWord hstart (by decide)).onward
                (beyond_passBlock hclose).toOnward)).ahead_ignore_lt
          (t.withReader closed).consume.skipTrivia
        | (false, moved) => (some (.ofMisspelling .openComment t.location), t.withReader moved)
      | (false, stayed) => (none, t.withReader stayed)
termination_by t.reader.ahead

/-- The tokenizer behind a token that has been scanned. The reader has dropped the text of an
identifier, so only the location has to be moved over it. -/
def pass (t : Tokenizer) (token : Token) (r : Rewindable) : Tokenizer :=
  match token with
  | .identifier name => { t with reader := r, location := t.location.advanceAll name.toList }
  | _ => (t.withReader r).consume

/-- Reads the next token behind the trivia. -/
def nextToken (t : Tokenizer) : Except TokenError (Option Lexeme) × Tokenizer :=
  match t.skipTrivia with
  | (some e, t) => (.error e, t)
  | (none, t) =>
    match t.reader.scanToken with
    | (.error fault, moved) => (.error (.ofMisspelling fault t.location), t.withReader moved)
    | (.ok none, moved) => (.ok none, t.withReader moved)
    | (.ok (some token), moved) => (.ok (some ⟨token, t.location⟩), t.pass token moved)

/-- The next token or misspelling, if there is one, and the tokenizer behind it. -/
def next (t : Tokenizer) : Option (Except TokenError Lexeme) × Tokenizer :=
  if t.failed then (none, t) else
    match t.nextToken with
    | (.error e, t) => (some (.error e), { t with failed := true })
    | (.ok none, t) => (none, t)
    | (.ok (some lexeme), t) => (some (.ok lexeme), t)

end Tokenizer

end Earley
