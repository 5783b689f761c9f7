import TableScript.FileTree
import TableScript.Interpreter

/-!
# The command line

    [-f|--file] [-p|--print-scope] [--max-lexeme-len N] [--max-call-depth N]
    [--max-nesting-depth N] <contents>

Runs the script `contents`, or with `-f` the file at that path, and with `-p` prints the bindings of
the root afterwards. Options may stand in any order, each at most once; `--` ends them.
-/

namespace TableScript

/-- What the command line asks for. A part that was not given is `none` or `false`. -/
structure Options where
  file : Bool := false
  printScope : Bool := false
  lexeme : Option Nat := none
  callDepth : Option Nat := none
  nesting : Option Nat := none
  contents : Option String := none
deriving Repr, DecidableEq

/-- What a command leaves behind. -/
structure Report where
  exit : Nat
  stdout : String := ""
  stderr : String := ""
deriving Repr, DecidableEq

namespace Options

/-- Asks for a file, which may be done once. -/
def setFile (o : Options) : Option Options :=
  if o.file then none else some { o with file := true }

/-- Asks for the bindings, which may be done once. -/
def setPrintScope (o : Options) : Option Options :=
  if o.printScope then none else some { o with printScope := true }

/-- Sets the script or path, of which there is one. -/
def setContents (o : Options) (contents : String) : Option Options :=
  match o.contents with
  | some _ => none
  | none => some { o with contents := some contents }

/-- A limit: digits, with at most one plus sign before them, for a number of 64 bits. -/
def limit? (s : String) : Option Nat :=
  let digits := match s.toList with
    | '+' :: cs => cs
    | cs => cs
  if digits.isEmpty || !digits.all Char.isDigit then none
  else
    let n := Number.ofDigits digits
    if n < Nat.pow 2 64 then some n else none

/-- Sets the limit with the given name. -/
def setLimit (o : Options) (name value : String) : Option Options := do
  let n ← limit? value
  match name, o with
  | "max-lexeme-len", { lexeme := none, .. } => some { o with lexeme := some n }
  | "max-call-depth", { callDepth := none, .. } => some { o with callDepth := some n }
  | "max-nesting-depth", { nesting := none, .. } => some { o with nesting := some n }
  | _, _ => none

/-- Whether an option takes a value. -/
def takesValue (name : String) : Bool :=
  name == "max-lexeme-len" || name == "max-call-depth" || name == "max-nesting-depth"

/-- Sets the options of one letter that are joined in one argument. -/
def setLetters (o : Options) : List Char → Option Options
  | [] => some o
  | 'f' :: cs => o.setFile.bind (·.setLetters cs)
  | 'p' :: cs => o.setPrintScope.bind (·.setLetters cs)
  | _ => none

/-- Reads the arguments after those that gave `o`. There is none if the usage is wrong. -/
def parseFrom (o : Options) : List String → Option Options
  | [] => some o
  | arg :: args =>
    match arg.toList with
    | ['-', '-'] => args.foldlM setContents o
    | '-' :: '-' :: long =>
      let name := String.ofList (long.takeWhile (· != '='))
      match long.dropWhile (· != '=') with
      | _ :: value => (o.setLimit name (String.ofList value)).bind (·.parseFrom args)
      | [] =>
        if takesValue name then
          match args with
          | [] => none
          | value :: args => (o.setLimit name value).bind (·.parseFrom args)
        else if name = "file" then o.setFile.bind (·.parseFrom args)
        else if name = "print-scope" then o.setPrintScope.bind (·.parseFrom args)
        else none
    | '-' :: c :: cs => (o.setLetters (c :: cs)).bind (·.parseFrom args)
    | _ => (o.setContents arg).bind (·.parseFrom args)

/-- Reads the arguments. There is none if the usage is wrong. -/
def parse (args : List String) : Option (Options × String) := do
  let o ← parseFrom {} args
  let contents ← o.contents
  some (o, contents)

/-- The limits that the options set. -/
def limits (o : Options) : Limits where
  lexeme := o.lexeme.getD ({} : Limits).lexeme
  callDepth := o.callDepth.getD ({} : Limits).callDepth
  nesting := o.nesting.getD ({} : Limits).nesting

end Options

/-! ### Paths of scripts -/

/-- The components of a path. Empty ones and `.` are left out, except for a `.` at the start of a
relative path. -/
def pathComponents (path : String) : List String :=
  let parts := (pathParts path).filter fun part => part != "" && part != "."
  if (pathParts path).head? = some "." then "." :: parts else parts

/-- The directory and the name of the file that a path ends with, if it ends with a name. -/
def splitPath? (path : String) : Option (String × String) :=
  match (pathComponents path).getLast? with
  | none => none
  | some name =>
    if name = "." ∨ name = ".." then none
    else
      let dir := "/".intercalate (pathComponents path).dropLast
      some (if path.startsWith "/" then "/" ++ dir else if dir.isEmpty then "." else dir, name)

/-! ### Running -/

namespace CommandLine

/-- The report of a run that has ended. -/
def report (printScope : Bool) : Except Stop Unit × Interpreter → Report
  | (.error (.failed e), _) => { exit := 1, stderr := e.message ++ "\n" }
  | (.error .outOfFuel, _) => { exit := 1 }
  | (.ok _, i) =>
    let lines := if printScope
      then i.bindings.map fun (name, v) => name ++ " = " ++ i.display v ++ "\n" else []
    { exit := 0, stdout := String.join lines }

/-- Runs what the options ask for. `loader` gives the loader for a base directory. -/
def execute (fuel : Nat) (loader : String → Loader) (o : Options) (contents : String) : Report :=
  if o.file then
    match splitPath? contents with
    | none => { exit := 1, stderr := s!"'{contents}' does not name a script file.\n" }
    | some (dir, name) =>
      report o.printScope (Interpreter.runFile fuel name (.new o.limits (loader dir)))
  else report o.printScope (Interpreter.run fuel contents (.new o.limits (loader ".")))

/-- Runs a command line in a directory. Wrong usage ends with the status 2. -/
def run (fuel : Nat) (loader : String → Loader) (args : List String) : Report :=
  match Options.parse args with
  | none => { exit := 2 }
  | some (o, contents) => execute fuel loader o contents

end CommandLine

end TableScript
