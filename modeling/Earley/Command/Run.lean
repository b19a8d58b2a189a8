/-
  `Run` — the checker as a function of its options, the files and the standard input.

  First the grammar is read and compiled, then the input is found and checked. The input comes
  from the file of the option, else from the path argument, else from the standard input, which
  is either the text itself, without the white space around it, or the path of a file. A line
  feed is added to every input. An interactive check takes each line of the standard input as an
  input of its own, and the last one decides.

  Each check is the work of a worker of its own, with room for deep inputs. The worker can fail
  where the check itself cannot, and the run goes on from there.

  Exit codes: zero to two as the verdict has them, two also for a worker that fails, three for a
  grammar that does not compile, four for a text that cannot be read.
-/
import Earley.Command.Files
import Earley.Command.Options
import Earley.Command.Report
import Earley.Tree.Drawing

namespace Earley.Command

/-- What becomes of a worker: it finishes its check, it breaks off behind the first `told` pieces
of what it had to tell, or it cannot be started. -/
inductive Worker
  | finishes
  | panics (told : Nat)
  | doesNotStart (message : String)

/-- All that a run can see besides its options: what is found at a path, the standard input, what
the environment asks to be printed, and what becomes of the worker of each check. -/
structure World where
  lookup : String → Entry
  stdin : ByteArray
  filters : Filters
  worker : Nat → Worker

/-- The exit code for a check that does not come to a verdict. -/
def exitDefect : Nat := 2

/-- The exit code for a grammar that does not compile. -/
def exitGrammar : Nat := 3

/-- The exit code for a text that cannot be read. -/
def exitRead : Nat := 4

/-- A record of the checker itself. -/
def note (level : Level) (text : String) : Piece := .record ⟨level, .command, text⟩

/-- The text at a path, or the words for why there is none. -/
def World.readText (w : World) (path : String) : Except String String :=
  match (w.lookup path).text with
  | .ok text => .ok text
  | .error e => .error ("Could not read " ++ path ++ ": " ++ e.message)

/-! ### The input -/

/-- The input that the text of the standard input stands for: the file that it names, if it names
one, else itself. -/
def World.resolve (w : World) (text : String) : Except String String :=
  let text := trim text
  if text.isEmpty then
    .error "You need to provide an input. Use --help to see available ways to do this."
  else if (w.lookup text).isFile then w.readText text
  else .ok text

/-- The input of a check that is not interactive. -/
def World.readInput (w : World) (o : Options) : Except String String :=
  match o.input <|> o.path with
  | some path => w.readText path
  | none =>
    match decodeText w.stdin with
    | .error e => .error ("Could not read stdin: " ++ e.message)
    | .ok text => w.resolve text

/-! ### One check -/

/-- What is told about a verdict. -/
def tell (behavior : Behavior) : Verdict → List Piece
  | .valid tree =>
    match behavior with
    | .tree => [.drawing tree.draw, note .info "Valid ✅"]
    | .validate => [note .info "Valid ✅"]
  | .invalid e => [note .error ("Invalid: " ++ e.message)]
  | .defect e => [note .error e.message]

/-- Tells whether the state sets of a check are listed. -/
def listsSets (o : Options) (w : World) : Bool :=
  w.filters.enables o.verbosity.limit .recognition .trace

/-- What a worker has to tell that checks one input. -/
def work (o : Options) (w : World) (g : Grammar) (input : String) : Report :=
  let chart := Chart.ofInput g (input.toList ++ ['\n']).toArray
  let verdict := Verdict.ofChart chart
  ⟨verdict.exitCode,
    (Record.ofCheck (listsSets o w) chart verdict).map .record ++ tell o.behavior verdict⟩

/-- A run that ends with an error. -/
def Report.failure (exitCode : Nat) (message : String) : Report :=
  ⟨exitCode, [note .error message]⟩

/-- The same report behind other pieces. -/
def Report.after (pieces : List Piece) (r : Report) : Report :=
  { r with pieces := pieces ++ r.pieces }

/-- Lets the worker of one turn check an input. -/
def check (o : Options) (w : World) (turn : Nat) (g : Grammar) (input : String) : Report :=
  match w.worker turn with
  | .finishes => work o w g input
  | .panics told =>
    (Report.failure exitDefect "BUG: validation panicked").after
      ((work o w g input).pieces.take told)
  | .doesNotStart message =>
    .failure exitDefect ("Could not start validation: " ++ message)

/-! ### Interactive checks -/

/-- The lines of some bytes, of which `taken` were read on the current one, the last byte first.
A line feed ends a line, together with a carriage return in front of it; there is no line behind
the last line feed. -/
def splitLines (taken : List UInt8) : List UInt8 → List (List UInt8)
  | [] => if taken.isEmpty then [] else [taken.reverse]
  | byte :: bytes =>
    if byte = 10 then
      let line := match taken with
        | 13 :: taken => taken
        | taken => taken
      line.reverse :: splitLines [] bytes
    else splitLines (byte :: taken) bytes

/-- Checks lines one after another, the first of them in the turn `turn`; `exitCode` is that of
the line before. -/
def interact (o : Options) (w : World) (g : Grammar) (turn exitCode : Nat) :
    List (List UInt8) → Report
  | [] => ⟨exitCode, []⟩
  | line :: lines =>
    match decodeText ⟨line.toArray⟩ with
    | .error e =>
      .failure exitRead
        ("Readline err: Io(Error \x7b kind: InvalidData, message: " ++ quoteText e.message
          ++ " \x7d)")
    | .ok input =>
      let first := check o w turn g input
      (interact o w g (turn + 1) first.exitCode lines).after first.pieces

/-! ### A whole run -/

/-- Checks what the options ask for, with the grammar compiled. -/
def runInput (o : Options) (w : World) (g : Grammar) : Report :=
  if o.interactive then interact o w g 0 0 (splitLines [] w.stdin.toList)
  else
    match w.readInput o with
    | .error message => .failure exitRead message
    | .ok input => check o w 0 g input

/-- A run of the checker. -/
def run (o : Options) (w : World) : Report :=
  match w.readText o.grammar with
  | .error message => .failure exitRead message
  | .ok text =>
    let compiling := (Record.ofCompile text.toList o.start).map .record
    match Grammar.compile text.toList o.start with
    | .error e => (Report.failure exitGrammar (o.grammar ++ ": " ++ e.display)).after compiling
    | .ok g =>
      let loaded := note .debug
        ("loaded " ++ toString g.rules.size ++ " rules from " ++ o.grammar)
      (runInput o w g).after (compiling ++ [loaded])

/-- What a run prints. -/
def Report.print (f : Formatter) (o : Options) (w : World) (r : Report) : Printed f :=
  .ofPieces f w.filters o.verbosity.limit r.pieces

/-! ### What a run may look at -/

/-- Tells whether a run reads the standard input. -/
def Options.readsStdin (o : Options) : Bool :=
  o.interactive || (o.input <|> o.path).isNone

/-- The paths that a run may look up, if the standard input is `stdin`. -/
def Options.paths (o : Options) (stdin : ByteArray) : List String :=
  o.grammar ::
    match o.input <|> o.path with
    | some path => [path]
    | none =>
      match decodeText stdin with
      | .error _ => []
      | .ok text => if o.interactive then [] else [trim text]

/-- The version of the checker, as it is printed. -/
def versionText : String := "kdc 0.1.0\n"

/-- How the checker is called. -/
def usageText : String :=
  "Usage: kdc [OPTIONS] --grammar FILE [PATH]\n\n" ++
  "  --grammar FILE       EBNF grammar file\n" ++
  "  --start NAME         rule the whole input has to match\n" ++
  "  --input FILE         file to check\n" ++
  "  --verbosity LEVEL    unix, default or verbose\n" ++
  "  --behavior BEHAVIOR  validate or tree\n" ++
  "  --interactive        check the lines of the standard input\n" ++
  "  -h, --help           print this text\n" ++
  "  -V, --version        print the version\n"

end Earley.Command
