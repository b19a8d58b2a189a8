/-
  `Main` — the checker as a program.

  The program reads what a run may look at, and prints what the run reports.
-/
import Earley.Command.Run

namespace Earley.Command

/-- All that is left of a stream, behind `taken`. -/
partial def readToEnd (stream : IO.FS.Stream) (taken : ByteArray) : IO ByteArray := do
  let bytes ← stream.read 65536
  if bytes.isEmpty then return taken
  readToEnd stream (taken ++ bytes)

/-- The number of a system error; some calls hand it on with its sign turned. -/
def systemErrorNumber (code : UInt32) : Nat := min code.toNat (0 - code).toNat

/-- What is found at a path, if reading there fails with `e`. -/
def entryOfError (e : IO.Error) : Entry :=
  match e with
  | .noFileOrDirectory _ _ _ => .nothing .notFound
  | .permissionDenied _ _ _ => .file (.error .permissionDenied)
  | .inappropriateType _ code _ =>
    if systemErrorNumber code = 21 then .nothing .isDirectory else .nothing .notDirectory
  | .invalidArgument _ code _ =>
    if systemErrorNumber code = 36 then .nothing .nameTooLong else .nothing (.other e.toString)
  | e => .nothing (.other e.toString)

/-- What is found at a path. -/
def readEntry (path : String) : IO Entry := do
  try
    return .file (.ok (← IO.FS.readBinFile path))
  catch e => return entryOfError e

/-- Reads what a run with these options may look at. The program takes no filters from its
environment, and its checks are not left to workers that could fail. -/
def readWorld (o : Options) : IO World := do
  let stdin ← if o.readsStdin then readToEnd (← IO.getStdin) .empty else pure .empty
  let found ← (o.paths stdin).mapM fun path => do return (path, ← readEntry path)
  return {
    lookup := fun path => (found.lookup path).getD (.nothing .notFound)
    stdin := stdin
    filters := .unset
    worker := fun _ => .finishes }

/-- Answers a command line; the result is the exit code. -/
def answer (args : List String) : IO UInt32 := do
  match Request.ofArgs args with
  | .error misuse =>
    (← IO.getStderr).putStr ("error: " ++ misuse.message ++ "\n\n" ++ usageText)
    return 2
  | .ok .version =>
    (← IO.getStdout).putStr versionText
    return 0
  | .ok .help =>
    (← IO.getStdout).putStr usageText
    return 0
  | .ok (.check o) =>
    let world ← readWorld o
    let report := run o world
    let printed := report.print .aligned o world
    (← IO.getStdout).putStr printed.output
    (← IO.getStderr).putStr printed.errors
    return report.exitCode.toUInt32

end Earley.Command

/-- The program. -/
def main (args : List String) : IO UInt32 := Earley.Command.answer args
