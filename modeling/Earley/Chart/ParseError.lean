/-
  `ParseError` — why an input has no tree.
-/
import Earley.Text.Location
import Earley.Text.Quoted

namespace Earley

/-- The two ways in which an input can have no tree. -/
inductive ParseError
  /-- The input is not in the language. Up to `position` its characters can be matched; there
  stands `found`, or the input ends, where only the terminals `expected` would have fitted. -/
  | noDerivation (position : Nat) (location : Location) (found : Option Char)
      (expected : List String)
  /-- The input is in the language, yet the chart gives no tree for `symbol` over the span. -/
  | notRebuilt (symbol : String) (start stop : Nat)
  deriving DecidableEq

namespace ParseError

/-- The position in the input that an error is about. -/
def position : ParseError → Nat
  | noDerivation position _ _ _ => position
  | notRebuilt _ start _ => start

/-- What stands where the input cannot be matched any further. -/
def describeFound : Option Char → String
  | some c => "unexpected " ++ quoteChar c
  | none => "unexpected end of input"

/-- What would have fitted, if anything would. -/
def describeExpected (expected : List String) : String :=
  if expected.isEmpty then "" else ", expected one of: " ++ ", ".intercalate expected

/-- The wording of an error. -/
def message : ParseError → String
  | noDerivation _ location found expected =>
    "No derivation at " ++ location.display ++ ": " ++ describeFound found
      ++ describeExpected expected
  | notRebuilt symbol start stop =>
    "BUG: could not rebuild " ++ symbol ++ " over " ++ toString start ++ ".." ++ toString stop
      ++ " from an accepting chart"

end ParseError

end Earley
