/-
  `Reader` — declarations out of tokens.

  The tokens of a grammar text form declarations by these rules:

      declaration  = identifier "=" alternatives ";"
      alternatives = sequence { "|" sequence }
      sequence     = { atom }
      atom         = identifier
                   | literal [ "..." literal ]
                   | "[" alternatives "]" | "{" alternatives "}" | "(" alternatives ")"

  The reader goes through the tokens once, with one decision each. It remembers where it is in a
  declaration (`Reader.Place`); inside a body that is a stack of the brackets that are open, each
  with what has been read in it. A literal is held back for one token, since the dots of a range
  may follow it.

  The first token that cannot stand where it is is the error, and names what would have fitted.
  The bounds of a range are single characters in order, which is checked when the range is
  complete, and is then an error at its lower bound.
-/
import Earley.Ebnf.CompileError
import Earley.Ebnf.Declaration
import Earley.Ebnf.TokenStream

namespace Earley

/-- What the reader may miss at a token. -/
inductive Expected
  | ruleName
  | token (t : Token)
  | rangeEnd

namespace Expected

/-- The words for what is missing. -/
def describe : Expected → String
  | ruleName => "rule name"
  | token t => "'" ++ t.display ++ "'"
  | rangeEnd => "range end literal"

/-- The error at a token that is not what was expected. -/
def notFound (e : Expected) (found : Lexeme) : CompileError :=
  ⟨.syntaxError, found.location,
    "Expected " ++ e.describe ++ ", found '" ++ found.token.display ++ "'"⟩

/-- The error at the end of the text, where something was still expected. -/
def atEnd (e : Expected) (endOfText : Location) : CompileError :=
  ⟨.syntaxError, endOfText, "Expected " ++ e.describe ++ ", found end of grammar"⟩

end Expected

/-- The range between two literals; `location` is the place of the lower one. -/
def Atom.ofBounds (lo hi : String) (location : Location) : Except CompileError Atom :=
  let bad (words : String) : CompileError :=
    ⟨.syntaxError, location, words ++ ": " ++ quoteText lo ++ " ... " ++ quoteText hi⟩
  match lo.toList, hi.toList with
  | [l], [h] => if l ≤ h then .ok (.range l h) else .error (bad "Empty range")
  | _, _ => .error (bad "Range bounds must be single characters")

namespace Reader

/-- What has been read between two brackets, or of a whole body: the alternatives before the last
bar, and the atoms of the current one. Both lists have the latest first. -/
structure Level where
  alternatives : List (List Atom)
  atoms : List Atom

namespace Level

/-- A level of which nothing has been read. -/
def empty : Level := ⟨[], []⟩

/-- One more atom in the current alternative. -/
def push (level : Level) (atom : Atom) : Level :=
  { level with atoms := atom :: level.atoms }

/-- The next alternative begins. -/
def bar (level : Level) : Level :=
  ⟨level.atoms.reverse :: level.alternatives, []⟩

/-- All alternatives, in the order of the text. -/
def close (level : Level) : List (List Atom) :=
  level.bar.alternatives.reverse

end Level

/-- A body that is being read: the level at hand, and below it each open bracket with the level
that it stands in, the innermost first. -/
structure Body where
  level : Level
  enclosing : List (Bracket × Level)

namespace Body

/-- One more atom. -/
def push (body : Body) (atom : Atom) : Body :=
  { body with level := body.level.push atom }

/-- A bracket opens. -/
def enter (body : Body) (bracket : Bracket) : Body :=
  ⟨.empty, (bracket, body.level) :: body.enclosing⟩

/-- What has to follow the last alternative: the token that closes the innermost bracket, or the
semicolon. -/
def closer (body : Body) : Token :=
  match body.enclosing with
  | [] => .semicolon
  | (bracket, _) :: _ => bracket.closer

end Body

/-- A literal that was read last, and may yet become the lower bound of a range. -/
structure Held where
  text : String
  location : Location

/-- Where the reader is. -/
inductive Place
  /-- Between declarations. -/
  | outside
  /-- Behind the name of a declaration. -/
  | named (name : String) (location : Location)
  /-- In the body of a declaration, behind a literal if one is held. -/
  | inside (name : String) (location : Location) (body : Body) (held : Option Held)
  /-- In the body of a declaration, behind the dots of a range. -/
  | bounded (name : String) (location : Location) (body : Body) (lower : Held)

/-- The body with the literal that is held, if there is one. -/
def settle (body : Body) : Option Held → Body
  | none => body
  | some held => body.push (.literal held.text)

end Reader

/-- A reading of tokens: the declarations that are complete, the last one first, and the place. -/
structure Reader where
  declared : List Declaration
  place : Reader.Place

namespace Reader

/-- The reader before the first token. -/
def start : Reader := ⟨[], .outside⟩

/-- The reader behind a token in a body, with the held literal settled. -/
def stepInside (declared : List Declaration) (name : String) (location : Location) (body : Body)
    (lexeme : Lexeme) : Except CompileError Reader :=
  let goOn (body : Body) : Except CompileError Reader :=
    .ok ⟨declared, .inside name location body none⟩
  match lexeme.token with
  | .identifier referent => goOn (body.push (.reference referent lexeme.location))
  | .literal text => .ok ⟨declared, .inside name location body (some ⟨text, lexeme.location⟩)⟩
  | .openBracket => goOn (body.enter .optional)
  | .openBrace => goOn (body.enter .repetition)
  | .openParen => goOn (body.enter .group)
  | .bar => goOn { body with level := body.level.bar }
  | token =>
    if token = body.closer then
      match body.enclosing with
      | [] => .ok ⟨⟨name, location, body.level.close⟩ :: declared, .outside⟩
      | (bracket, outer) :: enclosing =>
        goOn ⟨outer.push (.nested bracket body.level.close), enclosing⟩
    else .error ((Expected.token body.closer).notFound lexeme)

/-- The reader behind one more token. -/
def step (r : Reader) (lexeme : Lexeme) : Except CompileError Reader :=
  match r.place, lexeme.token with
  | .outside, .identifier name => .ok ⟨r.declared, .named name lexeme.location⟩
  | .outside, _ => .error (Expected.ruleName.notFound lexeme)
  | .named name location, .define => .ok ⟨r.declared, .inside name location ⟨.empty, []⟩ none⟩
  | .named _ _, _ => .error ((Expected.token .define).notFound lexeme)
  | .inside name location body (some held), .ellipsis =>
    .ok ⟨r.declared, .bounded name location body held⟩
  | .inside name location body held, _ =>
    stepInside r.declared name location (settle body held) lexeme
  | .bounded name location body lower, .literal upper =>
    match Atom.ofBounds lower.text upper lower.location with
    | .error e => .error e
    | .ok range => .ok ⟨r.declared, .inside name location (body.push range) none⟩
  | .bounded _ _ _ _, _ => .error (Expected.rangeEnd.notFound lexeme)

/-- The declarations that were read, if the text may end here. -/
def finish (r : Reader) (endOfText : Location) : Except CompileError (List Declaration) :=
  match r.place with
  | .outside => .ok r.declared.reverse
  | .named _ _ => .error ((Expected.token .define).atEnd endOfText)
  | .inside _ _ body _ => .error ((Expected.token body.closer).atEnd endOfText)
  | .bounded _ _ _ _ => .error (Expected.rangeEnd.atEnd endOfText)

end Reader

/-- The declarations that `lexemes` form in a text that ends at `endOfText`. -/
def Declaration.ofLexemes (lexemes : List Lexeme) (endOfText : Location) :
    Except CompileError (List Declaration) := do
  (← lexemes.foldlM Reader.step Reader.start).finish endOfText

/-- The declarations of a grammar text. -/
def Declaration.ofChars (text : List Char) : Except CompileError (List Declaration) :=
  match tokenize text with
  | .error e => .error (.ofTokenError e)
  | .ok lexemes => Declaration.ofLexemes lexemes (.endOf text)

end Earley
