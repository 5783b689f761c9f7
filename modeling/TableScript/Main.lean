import TableScript.CommandLine

/-!
# The program

Reads the files that the script may import, runs the command line on them and prints its report.
-/

namespace TableScript.Main

/-- How a wrong command line is answered. -/
def usage : String :=
  "usage: [-f|--file] [-p|--print-scope] [--max-lexeme-len N] [--max-call-depth N] " ++
  "[--max-nesting-depth N] <contents>"

/-- Fuel for a run. A run that needs more would take years. -/
def fuel : Nat := 1000000000000000000

/-- What an error of the operating system says about a script. -/
def failure : IO.Error → LoadFailure
  | .noFileOrDirectory .. => .notFound
  | .inappropriateType _ 20 _ => .unreadable ReadError.notDirectory.message
  | .inappropriateType _ 21 _ => .unreadable ReadError.isDirectory.message
  | e => .unreadable (toString e)

/-- Reads one file. -/
def readScript (path : String) : IO (Except LoadFailure String) := do
  try
    match String.fromUTF8? (← IO.FS.readBinFile path) with
    | some text => pure (.ok text)
    | none => pure (.error (.unreadable ReadError.notUnicode.message))
  catch e => pure (.error (failure e))

/-- Reads the files that are still asked for, and those that they ask for. -/
partial def gather (base : String) (limits : Limits)
    (known : List (String × Except LoadFailure String)) :
    List String → IO (List (String × Except LoadFailure String))
  | [] => pure known
  | name :: names => do
    if (known.lookup name).isSome then gather base limits known names
    else
      let script ← readScript (joinPath base name)
      let more := match script with
        | .ok text => Program.imports limits text
        | .error _ => []
      gather base limits ((name, script) :: known) (more ++ names)

end TableScript.Main

open TableScript in
/-- Runs the command line. -/
def main (args : List String) : IO UInt32 := do
  match Options.parse args with
  | none =>
    IO.eprintln Main.usage
    pure 2
  | some (o, contents) =>
    let (base, names) := match o.file, splitPath? contents with
      | true, some (dir, name) => (dir, [name])
      | true, none => (".", [])
      | false, _ => (".", Program.imports o.limits contents)
    let scripts ← Main.gather base o.limits [] names
    let report := CommandLine.execute Main.fuel (fun _ => .ofList scripts) o contents
    IO.print report.stdout
    IO.eprint report.stderr
    pure report.exit.toUInt32
