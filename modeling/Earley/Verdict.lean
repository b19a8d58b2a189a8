/-
  `Verdict` — the outcome of checking one input against a grammar.

  An input in the language is valid and has its preferred tree; any other is invalid. That an
  input is in the language, but no tree is found for it, would be a defect. The exit codes of a
  program that checks inputs tell the three apart.
-/
import Earley.Tree.Rebuild

namespace Earley

/-- The outcome of checking an input. -/
inductive Verdict
  | valid (tree : ParseTree)
  | invalid (error : ParseError)
  | defect (error : ParseError)

namespace Verdict

/-- The exit code for an outcome. -/
def exitCode : Verdict → Nat
  | valid _ => 0
  | invalid _ => 1
  | defect _ => 2

/-- Tells whether the input is in the language and has its tree. -/
def isValid : Verdict → Bool
  | valid _ => true
  | invalid _ | defect _ => false

end Verdict

/-- What comes out for the input of a chart. -/
def Verdict.ofChart (c : Chart) : Verdict :=
  match c.acceptingRule? with
  | none => .invalid c.rejection
  | some _ =>
    match c.tree with
    | .error e => .defect e
    | .ok tree => .valid tree

/-- Checks an input against a grammar. -/
def Grammar.validate (g : Grammar) (input : List Char) : Verdict :=
  .ofChart (.ofInput g input.toArray)

end Earley
