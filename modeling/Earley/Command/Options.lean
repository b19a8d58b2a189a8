/-
  `Options` — the command line of the checker.

  The checker declares its options and leaves it to a parser of command lines to read them.
  `Request.ofArgs` stands for that parser: it keeps the conventions that the parser documents, as
  far as the declared options come under them.
    - Arguments are read from left to right, and the first mistake counts.
    - An option gives its value behind an equals sign or in the next argument, which must not look
      like an option itself; a lone dash does not. Each option may be given once.
    - Two dashes end the options. At most one argument is no option, the path.
    - A request for the version or for help counts at the place where it stands.
    - What concerns the command line as a whole is checked behind the last argument: the grammar is
      required, and an interactive check reads no other input.
  The wording of a misuse is not the parser's, which prints the usage along with it. Nothing that is
  proved about the checker depends on how its options are read: it holds for all `Options`.
-/
import Earley.Journal

namespace Earley.Command

/-- How much is said. -/
inductive Verbosity
  /-- Errors only. -/
  | unix
  /-- The outcome, too. -/
  | normal
  /-- Everything. -/
  | verbose
  deriving DecidableEq

namespace Verbosity

/-- The verbosity that an argument names. -/
def ofName? : String → Option Verbosity
  | "unix" => some unix
  | "default" => some normal
  | "verbose" => some verbose
  | _ => none

/-- The limit on the levels of the records that are printed. -/
def limit : Verbosity → Level
  | unix => .error
  | normal => .info
  | verbose => .trace

end Verbosity

/-- What is done with a valid input. -/
inductive Behavior
  /-- Only the outcome is told. -/
  | validate
  /-- The tree is printed. -/
  | tree
  deriving DecidableEq

/-- The behavior that an argument names. -/
def Behavior.ofName? : String → Option Behavior
  | "validate" => some validate
  | "tree" => some tree
  | _ => none

/-- The start symbol where the command line gives none. -/
def defaultStart : String := "known_domain_catalog"

/-- What a command line asks for. -/
structure Options where
  /-- The path of the grammar text. -/
  grammar : String
  start : String
  /-- The path of the input, by the option. -/
  input : Option String
  verbosity : Verbosity
  behavior : Behavior
  interactive : Bool
  /-- The path of the input, as an argument of its own. -/
  path : Option String
  deriving DecidableEq

/-- What is to be done: print the version, or help, or check inputs. -/
inductive Request
  | version
  | help
  | check (options : Options)
  deriving DecidableEq

/-- The ways to misuse the command line. -/
inductive Misuse
  | unknownArgument (arg : String)
  | missingValue (option : String)
  | unexpectedValue (flag : String)
  | invalidValue (option value : String)
  | repeated (option : String)
  | missingGrammar
  | interactiveWithInput
  deriving DecidableEq

/-- The wording of a misuse. -/
def Misuse.message : Misuse → String
  | unknownArgument arg => "unexpected argument '" ++ arg ++ "'"
  | missingValue option => "a value is required for '" ++ option ++ "'"
  | unexpectedValue flag => "'" ++ flag ++ "' takes no value"
  | invalidValue option value => "invalid value '" ++ value ++ "' for '" ++ option ++ "'"
  | repeated option => "'" ++ option ++ "' cannot be used more than once"
  | missingGrammar => "'--grammar' is required"
  | interactiveWithInput => "'--interactive' cannot be used with another input"

/-! ### Settings -/

/-- The arguments that have a value: the options by name, and the path. -/
inductive Setting
  | grammar
  | start
  | input
  | verbosity
  | behavior
  | path
  deriving DecidableEq

namespace Setting

/-- The option that is called `name` behind its two dashes. -/
def ofName? : String → Option Setting
  | "grammar" => some grammar
  | "start" => some start
  | "input" => some input
  | "verbosity" => some verbosity
  | "behavior" => some behavior
  | _ => none

/-- The form in which messages name a setting. -/
def name : Setting → String
  | grammar => "--grammar"
  | start => "--start"
  | input => "--input"
  | verbosity => "--verbosity"
  | behavior => "--behavior"
  | path => "PATH"

end Setting

/-- The settings read so far. -/
structure Given where
  grammar : Option String
  start : Option String
  input : Option String
  verbosity : Option Verbosity
  behavior : Option Behavior
  path : Option String
  interactive : Bool

namespace Given

/-- Nothing is given. -/
def nothing : Given := ⟨none, none, none, none, none, none, false⟩

/-- A setting that was `old`, if it was given, and gets a value: only the first one is allowed. -/
def once {α : Type} (setting : Setting) (old : Option α) (value : α) : Except Misuse (Option α) :=
  match old with
  | some _ => .error (.repeated setting.name)
  | none => .ok (some value)

/-- A path that is given; an empty one is as good as none. -/
def filePath (setting : Setting) (value : String) : Except Misuse String :=
  if value.isEmpty then .error (.missingValue setting.name) else .ok value

/-- A value that has to be one of a few names. -/
def named {α : Type} (setting : Setting) (ofName? : String → Option α) (value : String) :
    Except Misuse α :=
  match ofName? value with
  | none => .error (.invalidValue setting.name value)
  | some a => .ok a

/-- Gives a setting its value. -/
def set (g : Given) (setting : Setting) (value : String) : Except Misuse Given :=
  match setting with
  | .grammar => do
    return { g with grammar := ← once setting g.grammar (← filePath setting value) }
  | .start => do return { g with start := ← once setting g.start value }
  | .input => do return { g with input := ← once setting g.input (← filePath setting value) }
  | .verbosity => do
    return { g with
      verbosity := ← once setting g.verbosity (← named setting Verbosity.ofName? value) }
  | .behavior => do
    return { g with
      behavior := ← once setting g.behavior (← named setting Behavior.ofName? value) }
  | .path =>
    match g.path with
    | some _ => .error (.unknownArgument value)
    | none => do return { g with path := some (← filePath setting value) }

/-- Asks for an interactive check. -/
def setInteractive (g : Given) : Except Misuse Given :=
  if g.interactive then .error (.repeated "--interactive") else .ok { g with interactive := true }

/-- The options that the settings amount to. -/
def options (g : Given) : Except Misuse Options :=
  match g.grammar with
  | none => .error .missingGrammar
  | some grammar =>
    if g.interactive && (g.input.isSome || g.path.isSome) then .error .interactiveWithInput
    else .ok {
      grammar := grammar
      start := g.start.getD defaultStart
      input := g.input
      verbosity := g.verbosity.getD .normal
      behavior := g.behavior.getD .validate
      interactive := g.interactive
      path := g.path }

end Given

/-! ### Reading arguments -/

/-- The forms of an argument. -/
inductive Argument
  /-- Two dashes. -/
  | separator
  /-- Two dashes and a name, perhaps with a value behind an equals sign. -/
  | long (name : String) (value : Option String)
  /-- One dash and letters, of which the first one counts. -/
  | short (letter : Char)
  /-- Anything else, which stands for itself. -/
  | plain (text : String)

/-- The form of an argument. -/
def Argument.ofString (arg : String) : Argument :=
  match arg.toList with
  | ['-', '-'] => .separator
  | '-' :: '-' :: rest =>
    let name := rest.takeWhile (· != '=')
    match rest.dropWhile (· != '=') with
    | [] => .long (String.ofList name) none
    | _ :: value => .long (String.ofList name) (some (String.ofList value))
  | '-' :: letter :: _ => .short letter
  | _ => .plain arg

/-- The request of `args` behind two dashes, where every argument is a path. -/
def readPaths (g : Given) : List String → Except Misuse Request
  | [] => do return .check (← g.options)
  | arg :: args => do readPaths (← g.set .path arg) args

/-- The request of `args`, of which `g` was given before. -/
def readArgs (g : Given) : List String → Except Misuse Request
  | [] => do return .check (← g.options)
  | arg :: args =>
    match Argument.ofString arg with
    | .separator => readPaths g args
    | .plain text => do readArgs (← g.set .path text) args
    | .short 'V' => .ok .version
    | .short 'h' => .ok .help
    | .short _ => .error (.unknownArgument arg)
    | .long name value =>
      match Setting.ofName? name, value with
      | some setting, some value => do readArgs (← g.set setting value) args
      | some setting, none =>
        match args with
        | [] => .error (.missingValue setting.name)
        | next :: args =>
          match Argument.ofString next with
          | .plain text => do readArgs (← g.set setting text) args
          | _ => .error (.missingValue setting.name)
      | none, some _ =>
        if name = "interactive" ∨ name = "version" ∨ name = "help" then
          .error (.unexpectedValue ("--" ++ name))
        else .error (.unknownArgument arg)
      | none, none =>
        if name = "interactive" then do readArgs (← g.setInteractive) args
        else if name = "version" then .ok .version
        else if name = "help" then .ok .help
        else .error (.unknownArgument arg)

/-- The request of a command line, by the conventions of the parser that reads it. -/
def Request.ofArgs (args : List String) : Except Misuse Request := readArgs .nothing args

end Earley.Command
