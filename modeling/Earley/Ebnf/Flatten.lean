/-
  `Flatten` — plain rules out of declarations.

  The rules of a grammar have no brackets. Brackets in a body become a non-terminal of their own,
  named after the declared rule, the kind of bracket and a number that counts the brackets of
  that rule in the order in which they open; a tilde in the name keeps it apart from identifiers.
  Optional alternatives get an empty rule behind their own, and repeated ones are rules that
  start with the non-terminal itself, so that repetition nests to the left. Two kinds of atoms
  leave no trace: a group with a single alternative is spliced into the sequence that it stands
  in, and an empty literal is dropped.

  The outcome is a list of quiet builder steps. Terminals are registered under the text by which
  messages name them, though any other naming of them would do for the flattening. A non-terminal
  comes before the steps of its alternatives, and a rule after those of the brackets in it.
-/
import Earley.Ebnf.Declaration
import Earley.Grammar.Steps

namespace Earley

/-- The part of a synthetic name that tells the kind of bracket. -/
def Bracket.tag : Bracket → String
  | .optional => "opt"
  | .repetition => "rep"
  | .group => "grp"

/-- The name of the `number`-th bracket in the rule called `rule`. -/
def Bracket.auxiliary (bracket : Bracket) (rule : String) (number : Nat) : String :=
  rule ++ "~" ++ bracket.tag ++ toString number

/-- What the alternatives of a bracket start with: in a repetition, the bracket itself. -/
def Bracket.lead (bracket : Bracket) (auxiliary : String) : List String :=
  match bracket with
  | .repetition => [auxiliary]
  | .optional | .group => []

/-- The rules of a bracket behind those of its alternatives: an empty one, unless it only
groups. -/
def Bracket.closing (bracket : Bracket) (auxiliary : String) : Steps :=
  match bracket with
  | .optional | .repetition => .one (.rule true auxiliary [])
  | .group => .none

/-- A sequence of atoms as the names of symbols, with the steps that register what these need and
the number of brackets that were opened in the rule so far. -/
structure Flattened where
  names : List String
  steps : Steps
  opened : Nat

/-- The flattening of a terminal that is called `form t`. -/
def Flattened.ofTerminal (form : Terminal → String) (t : Terminal) (opened : Nat) : Flattened :=
  ⟨[form t], .one (.terminal true (form t) t), opened⟩

section Form

variable (form : Terminal → String) (rule : String)

mutual

/-- The flattening of an atom in the rule called `rule`, of which `opened` brackets came before.
Terminals have the names that `form` gives to them. -/
def Atom.flatten (opened : Nat) : Atom → Flattened
  | .reference name _ => ⟨[name], .none, opened⟩
  | .literal text =>
    if text.isEmpty then ⟨[], .none, opened⟩ else .ofTerminal form (.literal text.toList) opened
  | .range lo hi => .ofTerminal form (.range lo hi) opened
  | .nested .group [alternative] => Atom.flattenIn opened alternative
  | .nested bracket body =>
    let auxiliary := bracket.auxiliary rule (opened + 1)
    let inner := Atom.flattenAmong auxiliary (bracket.lead auxiliary) (opened + 1) body
    ⟨[auxiliary], .one (.nonterm true auxiliary) ++ inner.1 ++ bracket.closing auxiliary, inner.2⟩

/-- The flattening of a sequence of atoms. -/
def Atom.flattenIn (opened : Nat) : List Atom → Flattened
  | [] => ⟨[], .none, opened⟩
  | atom :: atoms =>
    let first := atom.flatten opened
    let rest := Atom.flattenIn first.opened atoms
    ⟨first.names ++ rest.names, first.steps ++ rest.steps, rest.opened⟩

/-- The steps for alternatives of `head`, each with `lead` in front, and the number of brackets
opened by then. -/
def Atom.flattenAmong (head : String) (lead : List String) (opened : Nat) :
    List (List Atom) → Steps × Nat
  | [] => (.none, opened)
  | alternative :: body =>
    let first := Atom.flattenIn opened alternative
    let rest := Atom.flattenAmong head lead first.opened body
    (first.steps ++ .one (.rule true head (lead ++ first.names)) ++ rest.1, rest.2)

end

end Form

namespace Declaration

/-- The steps for the alternatives of a declaration, if terminals have the names of `form`. -/
def stepsBy (form : Terminal → String) (d : Declaration) : List Step :=
  (Atom.flattenAmong form d.name d.name [] 0 d.body).1.toList

/-- The steps for the bodies of all declarations, if terminals have the names of `form`. -/
def bodyStepsBy (form : Terminal → String) (declarations : List Declaration) : List Step :=
  declarations.flatMap (stepsBy form)

/-- All steps for declarations with one for each name, if terminals have the names of `form`: first
the names of the declarations, then the bodies. -/
def allStepsBy (form : Terminal → String) (declarations : List Declaration) : List Step :=
  (declarations.map fun d => .nonterm true d.name) ++ bodyStepsBy form declarations

/-- The steps for the bodies of all declarations. -/
def bodySteps : List Declaration → List Step := bodyStepsBy Terminal.display

/-- All steps for declarations with one for each name. -/
def allSteps : List Declaration → List Step := allStepsBy Terminal.display

end Declaration

end Earley
