/-
  `Drawing` — trees as lines of text.

  Every leaf and node has a line of its own, behind an indent that is drawn for the levels above
  it. A level adds three characters: a bar if another sibling follows further down, and blanks
  below the last one.

  Since indents get as long as a tree is deep, no indent is kept for the trees that are still to be
  drawn. There is one, that of the last line, and a pending tree keeps a margin: how much of it to
  leave, and what to put behind that.
-/
import Earley.Tree.Basic

namespace Earley

namespace ParseTree

/-- What the line of a tree shows: the rule of a node, or a terminal and the text it matched. -/
def caption : ParseTree → String
  | leaf terminal text _ => terminal ++ " ==> " ++ quoteText text
  | node _ rule _ _ => rule

/-- What a child adds to the indent of its parent, by whether it is the last one. -/
def stepBelow (last : Bool) : String := if last then "   " else "  |"

/-- How a pending tree finds its indent in that of the last line. -/
structure Margin where
  /-- The length of the indent of its parent. -/
  kept : Nat
  /-- What the tree adds to it. -/
  added : String

/-- The indent of the next line, out of that of the last one. -/
def Margin.indent (margin : Margin) (last : String) : String :=
  String.ofList (last.toList.take margin.kept) ++ margin.added

/-- The drawing with the line of one more tree at its end. -/
def drawLine (drawing indent : String) (t : ParseTree) : String :=
  drawing ++ indent ++ "`-- " ++ t.caption ++ "\n"

/-- Draws pending trees and all trees below them, each node before its children. The indent of the
line before is `last`. -/
def drawFrom (drawing last : String) : List (Margin × ParseTree) → String
  | [] => drawing
  | (margin, t) :: pending =>
    let indent := margin.indent last
    drawFrom (drawLine drawing indent t) indent
      (labelled (fun _ last => ⟨indent.length, stepBelow last⟩) margin t.children ++ pending)
termination_by pending => sizeAll (pending.map Prod.snd)
decreasing_by
  simp only [List.map_append, map_snd_labelled, sizeAll_append, List.map_cons, sizeAll, size_eq t]
  omega

/-- The drawing of a tree. -/
def draw (t : ParseTree) : String := drawFrom "" "" [(⟨0, ""⟩, t)]

end ParseTree

end Earley
