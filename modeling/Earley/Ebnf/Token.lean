/-
  `Token` — the tokens of a grammar text.

  A grammar text is written with identifiers, quoted literals, the sign that defines a rule, the
  bar between alternatives, the semicolon that ends a rule, the dots of a range, and three kinds
  of brackets. `Token.display` is the form in which messages name a token: an identifier as it
  is, a literal quoted, and each sign by its shortest spelling. A `Lexeme` is a token at the
  place where its spelling starts.
-/
import Earley.Text.Location
import Earley.Text.Quoted

namespace Earley

/-- The tokens of a grammar text; a literal holds its characters with the escapes resolved. -/
inductive Token
  | identifier (name : String)
  | literal (text : String)
  /-- The sign between the name of a rule and its body. -/
  | define
  /-- The bar between alternatives. -/
  | bar
  /-- The semicolon behind a rule. -/
  | semicolon
  /-- The three dots of a range. -/
  | ellipsis
  | openBracket
  | closeBracket
  | openBrace
  | closeBrace
  | openParen
  | closeParen
  deriving DecidableEq

namespace Token

/-- The form in which messages name a token. -/
def display : Token → String
  | identifier name => name
  | literal text => quoteText text
  | define => "="
  | bar => "|"
  | semicolon => ";"
  | ellipsis => "..."
  | openBracket => "["
  | closeBracket => "]"
  | openBrace => "\x7b"
  | closeBrace => "\x7d"
  | openParen => "("
  | closeParen => ")"

end Token

/-- A token and the place where its spelling starts. -/
structure Lexeme where
  token : Token
  location : Location
  deriving DecidableEq

/-- What can be wrong with the spelling of a token. -/
inductive Misspelling
  /-- A block comment is never closed. -/
  | openComment
  /-- A literal is never closed. -/
  | openLiteral
  /-- A backslash in a literal is followed by a character that means nothing there. -/
  | unknownEscape (c : Char)
  /-- A colon is not followed by the rest of the defining sign. -/
  | incompleteDefine
  /-- A dot is not followed by two more. -/
  | incompleteEllipsis
  /-- No token starts with this character. -/
  | strayChar (c : Char)
  deriving DecidableEq

namespace Misspelling

/-- The wording of a misspelling. -/
def message : Misspelling → String
  | openComment => "Unfinished comment missing '*)'"
  | openLiteral => "Unfinished string missing close quote"
  | unknownEscape c => "Unknown escape: \\" ++ String.singleton c
  | incompleteDefine => "Incomplete := operator"
  | incompleteEllipsis => "Incomplete ... range operator"
  | strayChar c => "Unexpected char: " ++ quoteChar c

end Misspelling

/-- A grammar text that cannot be split into tokens, and where. -/
structure TokenError where
  message : String
  location : Location
  deriving DecidableEq

namespace TokenError

/-- A misspelling of the token, or comment, that starts at `location`. -/
def ofMisspelling (fault : Misspelling) (location : Location) : TokenError :=
  ⟨fault.message, location⟩

/-- The wording together with the place. -/
def display (e : TokenError) : String :=
  e.message ++ " at " ++ e.location.display

end TokenError

end Earley
