/-
  `Blank` — the two classes of blank characters, and trimming.

  Grammar text is laid out with the six ASCII blanks (`isBlank`). What surrounds a whole input or
  ends a printed rule is trimmed by the wider Unicode property White_Space (`isWhiteSpace`), which
  has twenty-five characters and contains the six.
-/
namespace Earley

/-- The blanks that may stand between the tokens of a grammar text: space, line feed, carriage
return, tab, vertical tab and form feed. -/
def isBlank (c : Char) : Bool :=
  c == ' ' || c == '\n' || c == '\r' || c == '\t' || c == '\x0b' || c == '\x0c'

/-- The ranges of the Unicode property White_Space, in ascending order. -/
def whiteSpaceRanges : List (Nat × Nat) :=
  [(0x9, 0xd), (0x20, 0x20), (0x85, 0x85), (0xa0, 0xa0), (0x1680, 0x1680), (0x2000, 0x200a),
   (0x2028, 0x2029), (0x202f, 0x202f), (0x205f, 0x205f), (0x3000, 0x3000)]

/-- Tells whether a character has the Unicode property White_Space. -/
def isWhiteSpace (c : Char) : Bool :=
  whiteSpaceRanges.any fun r => decide (r.1 ≤ c.toNat) && decide (c.toNat ≤ r.2)

/-- Drops the white space at the end of a list of characters. -/
def trimEndChars (cs : List Char) : List Char :=
  (cs.reverse.dropWhile isWhiteSpace).reverse

/-- Drops the white space at the end of a text. -/
def trimEnd (s : String) : String :=
  String.ofList (trimEndChars s.toList)

/-- Drops the white space at both ends of a text. -/
def trim (s : String) : String :=
  String.ofList (trimEndChars (s.toList.dropWhile isWhiteSpace))

end Earley
