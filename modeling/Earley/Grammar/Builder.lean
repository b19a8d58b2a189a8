/-
  `Builder` — grammars put together step by step.

  A step registers a non-terminal, registers a terminal under a name, or adds a rule between
  registered names. Non-terminals and terminals share one name space. A step that is in error
  changes nothing but the first error (`Builder.error`), which later steps never replace. A quiet
  step differs in one thing: to meet a symbol or a rule that is there already is no error.

  `finish` gives the grammar for a start symbol, or else the first error: of the steps, then of
  the start symbol, then a non-terminal that is used but has no rule.
-/
import Earley.Grammar.Basic
import Earley.Grammar.Nullable
import Std.Data.HashSet

namespace Earley

/-- What can be wrong with a step or with the grammar as a whole. -/
inductive GrammarError
  /-- A name is registered a second time. -/
  | duplicateSymbol (name : String)
  /-- A name is used that is not registered. -/
  | missingSymbol (name : String)
  /-- A rule, given as its line, is added a second time. -/
  | duplicateRule (line : String)
  /-- A terminal is used as the head of a rule or as the start symbol. -/
  | notNonterminal (name : String)
  /-- A vacuous terminal is registered under this name. -/
  | emptyTerminal (name : String)
  /-- A non-terminal is used that has no rules. -/
  | noRules (name : String)
  deriving DecidableEq

namespace GrammarError

/-- The wording of an error. -/
def message : GrammarError → String
  | duplicateSymbol name => "Duplicate Symbol: " ++ name
  | missingSymbol name => "Missing Symbol: " ++ name
  | duplicateRule line => "Duplicate Rule: " ++ line
  | notNonterminal name => "Not a NonTerminal: " ++ name
  | emptyTerminal name => "Empty Terminal: " ++ name
  | noRules name => "Missing Rules for: " ++ name

end GrammarError

/-- One step in putting a grammar together. -/
inductive Step
  | nonterm (quiet : Bool) (name : String)
  | terminal (quiet : Bool) (name : String) (t : Terminal)
  | rule (quiet : Bool) (head : String) (body : List String)
  deriving DecidableEq

/-- A grammar under construction. -/
structure Builder where
  /-- The symbol registered under each name. -/
  symbols : Std.HashMap String Symbol
  /-- The names of the non-terminals, by number. -/
  nonterms : Array String
  /-- The rules, in the order in which they were added. -/
  rules : Array Rule
  /-- The same rules, to tell whether one is there. -/
  seen : Std.HashSet Rule
  /-- The first error. -/
  error : Option GrammarError

namespace Builder

/-- The builder before any step. -/
def empty : Builder := ⟨∅, #[], #[], ∅, none⟩

/-- Tells whether a name is registered. -/
def contains (b : Builder) (name : String) : Bool := b.symbols.contains name

/-- Keeps an error, unless there is an earlier one. -/
def fail (b : Builder) (e : GrammarError) : Builder :=
  { b with error := b.error <|> some e }

/-- Registers a new non-terminal under the next number. -/
def addNonterm (b : Builder) (quiet : Bool) (name : String) : Builder :=
  if b.contains name then
    if quiet then b else b.fail (.duplicateSymbol name)
  else
    { b with
      symbols := b.symbols.insert name (.nonterm b.nonterms.size)
      nonterms := b.nonterms.push name }

/-- Registers a new terminal; a vacuous one is an error also for a quiet step. -/
def addTerminal (b : Builder) (quiet : Bool) (name : String) (t : Terminal) : Builder :=
  if b.contains name then
    if quiet then b else b.fail (.duplicateSymbol name)
  else if t.isVacuous then b.fail (.emptyTerminal name)
  else { b with symbols := b.symbols.insert name (.terminal t) }

/-- The symbols registered under `names`, or the first name that is not registered. -/
def resolve (b : Builder) : List String → Except GrammarError (List Symbol)
  | [] => .ok []
  | name :: names =>
    match b.symbols[name]? with
    | none => .error (.missingSymbol name)
    | some symbol => (b.resolve names).map (symbol :: ·)

/-- The number of the non-terminal registered under `name`. -/
def resolveNonterm (b : Builder) (name : String) : Except GrammarError Nat :=
  match b.symbols[name]? with
  | some (.nonterm id) => .ok id
  | some (.terminal _) => .error (.notNonterminal name)
  | none => .error (.missingSymbol name)

/-- The rule between registered names; errors in the body come before one in the head. -/
def resolveRule (b : Builder) (head : String) (body : List String) : Except GrammarError Rule := do
  let symbols ← b.resolve body
  let id ← b.resolveNonterm head
  return ⟨id, symbols.toArray⟩

/-- Adds a rule between registered names. -/
def addRule (b : Builder) (quiet : Bool) (head : String) (body : List String) : Builder :=
  match b.resolveRule head body with
  | .error e => b.fail e
  | .ok rule =>
    if b.seen.contains rule then
      if quiet then b else b.fail (.duplicateRule (Grammar.ruleLine head body))
    else { b with rules := b.rules.push rule, seen := b.seen.insert rule }

/-- The builder after one more step. -/
def apply (b : Builder) : Step → Builder
  | .nonterm quiet name => b.addNonterm quiet name
  | .terminal quiet name t => b.addTerminal quiet name t
  | .rule quiet head body => b.addRule quiet head body

/-- The builder after all of `steps`. -/
def run (steps : List Step) : Builder := steps.foldl apply empty

/-! ### Finishing -/

/-- The numbers of the rules of each of `count` non-terminals, ascending. -/
def groupByHead (count : Nat) (rules : Array Rule) : Array (List Nat) :=
  let groups := (List.range rules.size).foldl (fun groups index =>
    groups.modify (rules.getD index default).head (index :: ·)) (Array.replicate count [])
  groups.map List.reverse

/-- The non-terminals that a grammar uses: the start symbol, then those in the bodies. -/
def used (start : Nat) (rules : Array Rule) : List Nat :=
  start :: rules.toList.flatMap fun rule => rule.body.toList.filterMap fun
    | .nonterm id => some id
    | .terminal _ => none

/-- The grammar for the start symbol called `start`, or the first error. -/
def finish (b : Builder) (start : String) : Except GrammarError Grammar :=
  match b.error, b.resolveNonterm start with
  | some e, _ => .error e
  | none, .error e => .error e
  | none, .ok id =>
    let alternatives := groupByHead b.nonterms.size b.rules
    match (used id b.rules).find? fun id => (alternatives.getD id []).isEmpty with
    | some id => .error (.noRules (b.nonterms.getD id ""))
    | none =>
      .ok {
        start := id
        nonterms := b.nonterms
        ids := Std.HashMap.ofList (b.nonterms.toList.zip (List.range b.nonterms.size))
        rules := b.rules
        alternatives := alternatives
        nullable := Nullable.table b.nonterms.size b.rules }

end Builder

/-- The grammar that `steps` put together for the start symbol called `start`. -/
def Grammar.build (steps : List Step) (start : String) : Except GrammarError Grammar :=
  (Builder.run steps).finish start

end Earley
