/-
  `Journal` — what is noted while a grammar is compiled and an input checked.

  A record has a level, a topic and a text. Levels go from errors, which always matter, to traces,
  which list every rule and every item; a limit lets through the levels up to it. The records are
  a function of the same values that the work itself is done with, stage by stage: nothing is
  noted about a stage that was not reached.
-/
import Earley.Ebnf.Compile
import Earley.Verdict

namespace Earley

/-- The levels of records, the most urgent first. -/
inductive Level
  | error
  | info
  | debug
  | trace
  deriving DecidableEq

namespace Level

/-- The place of a level in the order of urgency. -/
def rank : Level → Nat
  | error => 0
  | info => 1
  | debug => 2
  | trace => 3

/-- The name under which records are printed. -/
def name : Level → String
  | error => "ERROR"
  | info => "INFO"
  | debug => "DEBUG"
  | trace => "TRACE"

/-- Tells whether a limit lets a level through. -/
def admits (limit level : Level) : Bool := decide (level.rank ≤ limit.rank)

end Level

/-- What a record is about. -/
inductive Topic
  | grammarText
  | recognition
  | trees
  | verdicts
  | command
  deriving DecidableEq

/-- The name under which a topic is printed. -/
def Topic.name : Topic → String
  | grammarText => "chartparse::ebnf"
  | recognition => "chartparse::parser"
  | trees => "chartparse::trees"
  | verdicts => "chartparse::validate"
  | command => "kdc"

/-- One note. -/
structure Record where
  level : Level
  topic : Topic
  text : String
  deriving DecidableEq

namespace Record

/-- The records that a limit lets through. -/
def upTo (limit : Level) (records : List Record) : List Record :=
  records.filter fun r => limit.admits r.level

/-! ### Compiling a grammar -/

/-- The record of a declaration that extends an earlier one. -/
def ofExtension (d : Declaration) : Record :=
  ⟨.debug, .grammarText, "rule '" ++ d.name ++ "' at " ++ d.location.display ++ " adds "
    ++ toString d.body.length ++ " alternatives"⟩

/-- The record of a builder step; terminals are registered silently. -/
def ofStep? : Step → Option Record
  | .nonterm _ name => some ⟨.trace, .grammarText, "Adding non-term " ++ quoteText name⟩
  | .terminal _ _ _ => none
  | .rule _ head body =>
    some ⟨.trace, .grammarText, "Adding rule " ++ quoteText head ++ " -> " ++ quoteList body⟩

/-- The record of a compiled grammar, which was declared by `declared` rules. -/
def ofGrammar (declared : Nat) (g : Grammar) : Record :=
  ⟨.debug, .grammarText, "compiled " ++ toString declared ++ " rules into "
    ++ toString g.rules.size ++ " productions over " ++ toString g.nonterms.size
    ++ " non-terminals"⟩

/-- The records of building the grammar of merged declarations. -/
def ofMerged (merged : List Declaration) (start : String) : List Record :=
  (Declaration.bodySteps merged).filterMap ofStep? ++
    match Grammar.build (Declaration.allSteps merged) start with
    | .error _ => []
    | .ok g => [ofGrammar merged.length g]

/-- The records of checking and building, once the declarations of one name are merged. -/
def ofDeclarations (declarations : List Declaration) (start : String) (endOfText : Location) :
    List Record :=
  match Declaration.merge declarations with
  | .error _ => []
  | .ok merged =>
    match Declaration.check merged start endOfText with
    | .error _ => []
    | .ok () => ofMerged merged start

/-- The records of compiling a grammar text. -/
def ofCompile (text : List Char) (start : String) : List Record :=
  match Declaration.ofChars text with
  | .error _ => []
  | .ok declarations =>
    (Declaration.extensions [] declarations).map ofExtension ++
      ofDeclarations declarations start (.endOf text)

/-! ### Checking an input -/

/-- The listing of one state set. -/
def ofStateSet (g : Grammar) (pos : Nat) (s : StateSet) : List Record :=
  ⟨.trace, .recognition, "=== StateSet " ++ toString pos ++ " ==="⟩ ::
    s.items.toList.filterMap fun item =>
      (item.display? g).map fun line => ⟨.trace, .recognition, line⟩

/-- The listing of all state sets of a chart. -/
def ofSets (c : Chart) : List Record :=
  (List.range c.sets.size).flatMap fun pos => ofStateSet c.grammar pos (c.setAt pos)

/-- The record of how large a chart is. -/
def ofSize (c : Chart) : Record :=
  ⟨.debug, .recognition, "parsed " ++ toString c.input.size ++ " chars into "
    ++ toString c.itemCount ++ " items"⟩

/-- The records of what came out for the input of a chart. -/
def ofVerdict (c : Chart) : Verdict → List Record
  | .valid _ =>
    [⟨.debug, .trees, "rebuilt tree for " ++ c.grammar.startName ++ " over 0.."
      ++ toString c.input.size⟩]
  | .invalid e =>
    [⟨.debug, .recognition, e.message⟩, ⟨.info, .verdicts, "rejected: " ++ e.message⟩]
  | .defect e => [⟨.error, .verdicts, e.message⟩]

/-- The records of checking an input, given its chart and what came out. State sets are only
listed if that is asked for. -/
def ofCheck (listed : Bool) (c : Chart) (verdict : Verdict) : List Record :=
  (if listed then ofSets c else []) ++ ofSize c :: ofVerdict c verdict

end Record

end Earley
