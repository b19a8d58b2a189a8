/-
  `Report` — what the checker prints.

  A check puts out pieces: records, each a line of its own, and drawings of trees, which are
  printed as they are. Lines of errors go to the error stream and everything else to the output
  stream. The verbosity limits the levels that are printed. The environment has the last word: it
  can give a directive for a topic, which goes before the verbosity, and leave records out by
  their text.

  How a record becomes a line is left to a formatter, which both streams share. The one of the
  program puts the level and the topic in front of the text, and pads the topic to the longest one
  that has been printed so far, on either stream. Records that are left out do not count for that.
-/
import Earley.Journal

namespace Earley.Command

/-- A piece of what is printed. -/
inductive Piece
  | record (r : Record)
  | drawing (text : String)

/-- The exit code of a run, and its pieces in order. -/
structure Report where
  exitCode : Nat
  pieces : List Piece

/-! ### What is let through -/

/-- How much is let through of a topic. -/
inductive Directive
  | off
  | upTo (limit : Level)

/-- Tells whether a directive lets a level through. -/
def Directive.admits : Directive → Level → Bool
  | off, _ => false
  | upTo limit, level => limit.admits level

/-- What the environment asks for: directives for topics, and which texts are shown. -/
structure Filters where
  directive? : Topic → Option Directive
  shows : String → Bool

namespace Filters

/-- An environment that asks for nothing. -/
def unset : Filters where
  directive? _ := none
  shows _ := true

/-- Tells whether a level of a topic is let through, if the verbosity has the limit `limit`. -/
def enables (filters : Filters) (limit : Level) (topic : Topic) (level : Level) : Bool :=
  ((filters.directive? topic).getD (.upTo limit)).admits level

/-- Tells whether a record is let through. -/
def admits (filters : Filters) (limit : Level) (r : Record) : Bool :=
  filters.enables limit r.topic r.level && filters.shows r.text

end Filters

/-! ### Lines -/

/-- A text of spaces. -/
def spaces (n : Nat) : String := .ofList (.replicate n ' ')

/-- A text with spaces behind it up to a width. -/
def pad (width : Nat) (text : String) : String := text ++ spaces (width - text.length)

/-- A way to write records as lines. Earlier records count for a line as far as the state keeps
them. -/
structure Formatter where
  State : Type
  initial : State
  line : State → Record → String
  next : State → Record → State

/-- The formatter of the program. Its state is the width of the longest topic so far. -/
def Formatter.aligned : Formatter where
  State := Nat
  initial := 0
  line width r :=
    " " ++ pad 5 r.level.name ++ " " ++ pad (max width r.topic.name.length) r.topic.name ++ " > "
      ++ r.text ++ "\n"
  next width r := max width r.topic.name.length

/-! ### The two streams -/

/-- What has been printed: the two streams, and the state of the formatter. -/
structure Printed (f : Formatter) where
  output : String
  errors : String
  state : f.State

namespace Printed

variable {f : Formatter}

/-- Prints one more piece. -/
def add (filters : Filters) (limit : Level) (p : Printed f) : Piece → Printed f
  | .drawing text => { p with output := p.output ++ text }
  | .record r =>
    if filters.admits limit r then
      let line := f.line p.state r
      let state := f.next p.state r
      if r.level = .error then ⟨p.output, p.errors ++ line, state⟩
      else ⟨p.output ++ line, p.errors, state⟩
    else p

/-- Prints pieces, one after another. -/
def ofPieces (f : Formatter) (filters : Filters) (limit : Level) (pieces : List Piece) :
    Printed f :=
  pieces.foldl (add filters limit) ⟨"", "", f.initial⟩

end Printed

end Earley.Command
