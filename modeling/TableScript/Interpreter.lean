import TableScript.Machine.Eval
import TableScript.Program.Label
import TableScript.Program.Source
import TableScript.Value.Outline

/-!
# The interpreter

An interpreter reads scripts and runs them one after another on one machine. The bindings of the
root are kept from one run to the next, also after a failure. A script that cannot be read is not
run at all.
-/

namespace TableScript

/-- A machine, the loader for its scripts, and the next free tag for a function literal. -/
structure Interpreter where
  machine : Machine := {}
  load : Loader
  nextTag : Nat := 1

namespace Interpreter

/-- An interpreter that has run nothing yet. -/
def new (limits : Limits) (load : Loader) : Interpreter := { machine := { limits }, load }

/-- Reads a script that is not from a file. -/
def parse (i : Interpreter) (source : String) : Except Error Program :=
  Program.ofSource i.load i.machine.limits none source

/-- Numbers the function literals of a program that was read, unless reading failed. -/
def accept (read : Interpreter → Except Error Program) : Action Interpreter Stop Program := fun i =>
  match read i with
  | .error e => (.error (.failed e), i)
  | .ok program =>
    let (program, nextTag) := program.label i.nextTag
    (.ok program, { i with nextTag })

/-- Runs something on the machine. -/
def onMachine {α : Type} (x : Run α) : Action Interpreter Stop α := fun i =>
  let (r, machine) := x i.machine
  (r, { i with machine })

/-- Reads and runs a script. -/
def run (fuel : Nat) (source : String) : Action Interpreter Stop Unit := do
  let program ← accept fun i => i.parse source
  onMachine (Run.execute fuel program)

/-- Loads a file and reads it. -/
def parseFile (i : Interpreter) (name : String) : Except Error Program :=
  match i.load name with
  | .error failure => .error { cause := .unavailable name failure.message }
  | .ok source =>
    (Program.ofSource i.load i.machine.limits (some name) source).mapError (Error.inFile name)

/-- Loads, reads and runs a file. -/
def runFile (fuel : Nat) (name : String) : Action Interpreter Stop Unit := do
  let program ← accept fun i => i.parseFile name
  onMachine (Run.executeFile fuel name program)

/-- The value of a name in the root. -/
def get? (i : Interpreter) (name : String) : Option Value := i.machine.scopes.root.get? name

/-- The names bound in the root with their values, by name. -/
def bindings (i : Interpreter) : List (String × Value) := i.machine.scopes.root.entries

/-- How a value of this interpreter is printed. -/
def display (i : Interpreter) (v : Value) : String := i.machine.tables.display v

end Interpreter

end TableScript
