/-
  `Identifier` — the characters of identifiers.

  An identifier is an ASCII letter or an underscore, followed by any number of ASCII letters,
  digits and underscores.
-/
namespace Earley

/-- Tells whether an identifier may start with `c`: an ASCII letter or an underscore. -/
def isIdentifierStart (c : Char) : Bool :=
  c.isAlpha || c == '_'

/-- Tells whether `c` may follow in an identifier: an ASCII letter, a digit or an underscore. -/
def isIdentifierRest (c : Char) : Bool :=
  c.isAlphanum || c == '_'

/-- What may start an identifier may also follow in one. -/
theorem isIdentifierRest_of_isIdentifierStart {c : Char} (h : isIdentifierStart c = true) :
    isIdentifierRest c = true := by
  simp only [isIdentifierStart, isIdentifierRest, Char.isAlphanum, Bool.or_eq_true] at h ⊢
  rcases h with h | h
  · exact Or.inl (Or.inl h)
  · exact Or.inr h

end Earley
