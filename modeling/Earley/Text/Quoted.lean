/-
  `Quoted` — texts and single characters between quotes, as messages and trees print them.

  A text stands between double quotes and a character between single ones. The quote in use and
  the backslash are escaped by a backslash, four controls have letters of their own, every other
  hidden character is written by its number as `\u{hex}`, and the rest stands as it is. The other
  quote is not escaped. All of this is `escape`, one character at a time. Which characters are
  hidden is a matter of tables (`isVisible`), and the forms can be had with any other choice.
-/
import Earley.Text.Visible

namespace Earley

/-- The two quotes: double ones hold a text, single ones a character. -/
inductive Quote
  | single
  | double
  deriving DecidableEq

namespace Quote

/-- The character that opens and closes. -/
def mark : Quote → Char
  | single => '\''
  | double => '"'

/-- The form of one character between two quotes, where `visible` tells which characters may stand
as they are. -/
def escapeBy (visible : Char → Bool) (q : Quote) (c : Char) : List Char :=
  if c = '\x00' then ['\\', '0']
  else if c = '\t' then ['\\', 't']
  else if c = '\r' then ['\\', 'r']
  else if c = '\n' then ['\\', 'n']
  else if c = '\\' then ['\\', '\\']
  else if c = q.mark then ['\\', c]
  else if visible c then [c]
  else ['\\', 'u', '\x7b'] ++ Nat.toDigits 16 c.toNat ++ ['\x7d']

/-- The characters `cs` between two quotes, where `visible` tells which may stand as they are. -/
def encloseBy (visible : Char → Bool) (q : Quote) (cs : List Char) : List Char :=
  q.mark :: (cs.flatMap (q.escapeBy visible) ++ [q.mark])

/-- The form of one character between two quotes, as messages have it. -/
def escape : Quote → Char → List Char := escapeBy isVisible

end Quote

/-- A text between double quotes, where `visible` tells which characters may stand as they are. -/
def quoteTextBy (visible : Char → Bool) (s : String) : String :=
  String.ofList (Quote.double.encloseBy visible s.toList)

/-- A character between single quotes; it may stand as it is, if `visible` tells so. -/
def quoteCharBy (visible : Char → Bool) (c : Char) : String :=
  String.ofList (Quote.single.encloseBy visible [c])

/-- A text between double quotes, such as `"a\n"`. -/
def quoteText : String → String := quoteTextBy isVisible

/-- A character between single quotes, such as `'\n'`. -/
def quoteChar : Char → String := quoteCharBy isVisible

/-- A list of texts between brackets, each one quoted, such as `["a", "b"]`. -/
def quoteList (texts : List String) : String :=
  "[" ++ ", ".intercalate (texts.map quoteText) ++ "]"

end Earley
