import TableScript.Action
import TableScript.Limits
import TableScript.Scope
import TableScript.Value.Tables

/-!
# The machine

What a running script can read and change: its scopes, the store of tables, the limits, how many
calls are active, and the file whose code is running. A run is an action on the machine: what a
script did before it failed stays done.

The evaluator is given fuel, and a run that needs more of it stops without an answer. That is kept
apart from failing: a script that loops forever does not fail.

What runs code needs no more than a state that holds a machine (`HasMachine`). The machine itself is
such a state, and so is a machine together with something that is kept about the run.
-/

namespace TableScript

/-- The state of a running script. -/
structure Machine where
  scopes : Scopes := .fresh
  tables : Tables := {}
  limits : Limits := {}
  /-- How many calls are active. -/
  callDepth : Nat := 0
  /-- The file whose code is running, if it came from one. -/
  file : Option String := none

/-- Why a run ends without a value. -/
inductive Stop where
  | failed (e : Error)
  | outOfFuel
deriving DecidableEq

/-- The same reason, seen from outside of `file`. -/
def Stop.inFile (file : String) : Stop → Stop
  | .failed e => .failed (e.inFile file)
  | .outOfFuel => .outOfFuel

/-- A state that holds a machine. -/
class HasMachine (σ : Type) where
  machine : σ → Machine
  withMachine : σ → Machine → σ

instance : HasMachine Machine where
  machine m := m
  withMachine _ m := m

/-- Changes the machine that a state holds. -/
def HasMachine.change {σ : Type} [HasMachine σ] (f : Machine → Machine) (s : σ) : σ :=
  withMachine s (f (machine s))

/-- A run of a script, on a state that holds a machine. -/
abbrev RunOn (σ : Type) := Action σ Stop

/-- A run of a script. -/
abbrev Run := RunOn Machine

namespace Run

variable {σ α : Type}

/-- Stops for lack of fuel. -/
def outOfFuel : RunOn σ α := Action.fail .outOfFuel

/-- Fails on the given line. -/
def failAt (line : Nat) (e : RuntimeError) : RunOn σ α := Action.fail (.failed (.runtime line e))

/-- The result of an operation on values, which fails on the given line if it does. -/
def check (line : Nat) : Except RuntimeError α → RunOn σ α
  | .ok a => pure a
  | .error e => failAt line e

/-- Does something on the machine that runs no code. -/
def step [HasMachine σ] (x : Run α) : RunOn σ α := fun s =>
  let (r, m) := x (HasMachine.machine s)
  (r, HasMachine.withMachine s m)

@[simp] theorem step_self (x : Run α) : step x = x := rfl

/-! ### Names -/

/-- The value of a name. -/
def lookup (line : Nat) (name : String) : Run Value := do
  match ← Action.read fun m => m.scopes.lookup name with
  | some v => pure v
  | none => failAt line (.undefinedName name)

theorem lookup_apply (line : Nat) (name : String) (m : Machine) :
    lookup line name m = (match m.scopes.lookup name with
      | some v => .ok v
      | none => .error (.failed (.runtime line (.undefinedName name))), m) := by
  rw [lookup, Action.bind_apply]
  simp only [Action.read_apply]
  cases m.scopes.lookup name with
  | none => rfl
  | some v => rfl

/-- Binds a name in the current frame. -/
def define (name : String) (v : Value) : Run Unit :=
  Action.modify fun m => { m with scopes := m.scopes.define name v }

/-- Overwrites a binding around the current frame. -/
def reassign (line : Nat) (name : String) (v : Value) : Run Unit := do
  let found ← Action.update fun m =>
    let (found, scopes) := m.scopes.reassign name v
    (found, { m with scopes })
  if found then pure () else failAt line (.unboundReference name)

/-- Binds parameters to arguments, pair by pair. Arguments in excess are dropped, and parameters
without an argument stay unbound. -/
def bindParams [HasMachine σ] : List String → List Value → RunOn σ Unit
  | name :: names, v :: vs => do
    step (define name v)
    bindParams names vs
  | _, _ => pure ()

/-! ### Tables -/

/-- Makes an empty table. -/
def newTable : Run TableId :=
  Action.update fun m =>
    let (t, tables) := m.tables.create
    (t, { m with tables })

/-- The value at a key of a table. -/
def getEntry (t : TableId) (k : Key) : Run Value := Action.read fun m => m.tables.get t k

/-- Puts a value at a key of a table. -/
def setEntry (t : TableId) (k : Key) (v : Value) : Run Unit :=
  Action.modify fun m => { m with tables := m.tables.insert t k v }

/-! ### Frames, calls and files -/

/-- Opens a frame. -/
def enterFrame (kind : FrameKind) (m : Machine) : Machine :=
  { m with scopes := m.scopes.push kind }

/-- Closes the current frame. -/
def leaveFrame (m : Machine) : Machine := { m with scopes := m.scopes.pop.2 }

/-- Opens the frame of a call. -/
def enterCall (m : Machine) : Machine :=
  enterFrame (.function .null) { m with callDepth := m.callDepth + 1 }

/-- Closes the frame of a call. -/
def leaveCall (m : Machine) : Machine :=
  let m := leaveFrame m
  { m with callDepth := m.callDepth - 1 }

/-- The value that the current call returns. -/
def result : Run Value := Action.read fun m => m.scopes.result?.getD .null

/-- Sets the value that the current call returns. -/
def setResult (line : Nat) (v : Value) : Run Unit := do
  let found ← Action.update fun m =>
    let (found, scopes) := m.scopes.setResult v
    (found, { m with scopes })
  if found then pure () else failAt line .returnOutsideFunction

/-! ### Code in a frame, a call or a file of its own -/

section On

variable [HasMachine σ]

/-- Runs `x` in a frame of its own, which is closed also if `x` fails. -/
def inFrame (kind : FrameKind) (x : RunOn σ α) : RunOn σ α :=
  Action.between (HasMachine.change (enterFrame kind)) (HasMachine.change leaveFrame) x

/-- Runs `x` as a call, unless as many calls are active as the limits allow. -/
def inCall (line : Nat) (x : RunOn σ α) : RunOn σ α := fun s =>
  let m := HasMachine.machine s
  if m.limits.callDepth ≤ m.callDepth then
    failAt line (.callDepthExceeded m.limits.callDepth) s
  else Action.between (HasMachine.change enterCall) (HasMachine.change leaveCall) x s

/-- Runs `x` as code of `file`. If other code was running, an error in `x` is marked with the
file. -/
def inFile (file : Option String) (x : RunOn σ α) : RunOn σ α := fun s =>
  let outer := (HasMachine.machine s).file
  if outer = file then x s
  else
    let marked := match file with
      | some name => Action.mapError (Stop.inFile name) x
      | none => x
    Action.between (HasMachine.change fun m => { m with file })
      (HasMachine.change fun m => { m with file := outer }) marked s

end On

/-! On the machine itself nothing is between a run and what it changes. -/

theorem inCall_apply (line : Nat) (x : Run α) (m : Machine) :
    inCall line x m =
      if m.limits.callDepth ≤ m.callDepth then failAt line (.callDepthExceeded m.limits.callDepth) m
      else Action.between enterCall leaveCall x m := rfl

theorem inFile_apply (file : Option String) (x : Run α) (m : Machine) :
    inFile file x m =
      if m.file = file then x m
      else
        Action.between (fun m => { m with file }) (fun m' => { m' with file := m.file })
          (match file with
            | some name => Action.mapError (Stop.inFile name) x
            | none => x) m := rfl

end Run

end TableScript
