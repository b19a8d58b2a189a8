/-
  `Merge` — several declarations of one name.

  A later declaration of a name adds its alternatives behind those that the name has already; the
  name keeps the place of its first declaration. To repeat an alternative of an earlier
  declaration is an error at the later one. Alternatives are compared up to the places of their
  references, as they stand between the bars of the declaration. Repeats within one declaration
  are let through.
-/
import Earley.Ebnf.CompileError
import Earley.Ebnf.Declaration

namespace Earley

namespace Declaration

/-- Tells whether `later` has an alternative that `earlier` has, too. -/
def repeats (earlier later : Declaration) : Bool :=
  later.body.any fun alternative => earlier.body.any (Atom.alikeIn alternative)

/-- The error of a declaration that repeats an alternative. -/
def repeated (later : Declaration) : CompileError :=
  ⟨.duplicateRule, later.location,
    "Rule '" ++ later.name ++ "' repeats an alternative it already has"⟩

/-- The declaration in `merged` of the same name as `later`, if there is one. -/
def earlier? (merged : List Declaration) (later : Declaration) : Option Declaration :=
  merged.find? fun earlier => earlier.name == later.name

/-- Takes one more declaration in: behind the others if its name is new, else into the
declaration of that name. -/
def absorb (merged : List Declaration) (later : Declaration) :
    Except CompileError (List Declaration) :=
  match earlier? merged later with
  | none => .ok (merged ++ [later])
  | some earlier =>
    if repeats earlier later then .error (repeated later)
    else .ok (merged.map fun d =>
      if d.name == later.name then { d with body := d.body ++ later.body } else d)

/-- Declarations with one for each name, in the order of the first ones. -/
def merge (declarations : List Declaration) : Except CompileError (List Declaration) :=
  declarations.foldlM absorb []

/-- The declarations, in order, that `merge` takes into earlier ones; if it fails, those before
the failure. -/
def extensions (merged : List Declaration) : List Declaration → List Declaration
  | [] => []
  | later :: rest =>
    match absorb merged later with
    | .error _ => []
    | .ok merged' =>
      if (earlier? merged later).isSome then later :: extensions merged' rest
      else extensions merged' rest

end Declaration

end Earley
