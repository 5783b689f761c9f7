import TableScript.Machine
import TableScript.Value.Operator

/-!
# Evaluation

`eval` gives the value of an expression and `exec` carries out a statement. Operands and arguments
are evaluated from left to right. A call opens its frame first, so the function and its arguments
are evaluated inside of it. A conditional and a loop have a frame each, a loop one for all its
turns; a bare block and an import have none.

The rules say what is done with an expression or a statement, given what is done with its parts
(`evalRule`, `execRule`). They are the same on any state that holds a machine.

`eval` and `exec` apply them all the way down, and take fuel for that: every step inward and every
turn of a loop needs one unit more. Only a loop can use up any amount of it, since calls are limited
in depth.
-/

namespace TableScript

/-- How a statement ended, if it did not fail. -/
inductive Flow where
  | normal
  /-- A `Return` was carried out, so the rest of the function is skipped. -/
  | returned
deriving Repr, DecidableEq

namespace Run

/-! ### Lists of expressions and statements -/

section Lists

variable {σ : Type} [HasMachine σ]

/-- The values of expressions, from left to right. -/
def evalAll (eval : Expr → RunOn σ Value) : List Expr → RunOn σ (List Value)
  | [] => pure []
  | e :: es => do
    let v ← eval e
    let vs ← evalAll eval es
    pure (v :: vs)

/-- Evaluates a key. -/
def evalKey (eval : Expr → RunOn σ Value) (line : Nat) (e : Expr) : RunOn σ Key := do
  let v ← eval e
  check line (Key.ofValue v)

/-- Evaluates the table that is indexed. -/
def evalTable (eval : Expr → RunOn σ Value) (line : Nat) (e : Expr) : RunOn σ TableId := do
  let v ← eval e
  check line v.toTable

/-- Evaluates a condition. -/
def evalBool (eval : Expr → RunOn σ Value) (line : Nat) (e : Expr) : RunOn σ Bool := do
  let v ← eval e
  check line v.toBool

/-- Evaluates the function that is called. -/
def evalRoutine (eval : Expr → RunOn σ Value) (line : Nat) (e : Expr) : RunOn σ Routine := do
  let v ← eval e
  check line v.toRoutine

/-- Puts the entries of a table literal into a table. -/
def fill (eval : Expr → RunOn σ Value) (line : Nat) (t : TableId) :
    List (Expr × Expr) → RunOn σ Unit
  | [] => pure ()
  | (key, value) :: entries => do
    let k ← evalKey eval line key
    let v ← eval value
    step (setEntry t k v)
    fill eval line t entries

/-- Carries out statements until one returns. -/
def execAll (exec : Stmt → RunOn σ Flow) : List Stmt → RunOn σ Flow
  | [] => pure .normal
  | s :: ss => do
    match ← exec s with
    | .normal => execAll exec ss
    | .returned => pure .returned

/-- The statements of a conditional that are carried out. -/
def branch (yes : Block) (no : Option Block) : Bool → List Stmt
  | true => yes.stmts
  | false =>
    match no with
    | some block => block.stmts
    | none => []

/-- Carries out `body` while `condition` holds and `body` does not return. -/
def repeatWhile (condition : RunOn σ Bool) (body : RunOn σ Flow) : Nat → RunOn σ Flow
  | 0 => outOfFuel
  | fuel + 1 => do
    if ← condition then
      match ← body with
      | .normal => repeatWhile condition body fuel
      | .returned => pure .returned
    else pure .normal

/-- Assigns to a name or to a place in a table. Nothing else can be assigned to. -/
def assign (eval : Expr → RunOn σ Value) (line : Nat) (how : Assignment) (target value : Expr) :
    RunOn σ Unit :=
  match target with
  | .var _ name => do
    let v ← eval value
    match how with
    | .define => step (define name v)
    | .reassign => step (reassign line name v)
  | .index line base key => do
    let t ← evalTable eval line base
    let k ← evalKey eval line key
    let v ← eval value
    step (setEntry t k v)
  | _ => failAt line .invalidTarget

end Lists

/-! ### Expressions and statements

The rules, given how the parts are evaluated and carried out. -/

section Rules

variable {σ : Type} [HasMachine σ] (eval : Expr → RunOn σ Value) (exec : Stmt → RunOn σ Flow)

/-- What a call does with a function, in its frame. -/
def callRoutine (f : Routine) (args : List Expr) : RunOn σ Value := do
  let vs ← evalAll eval args
  bindParams f.params vs
  let _ ← inFile f.file (execAll exec f.body.stmts)
  step result

/-- What a call does in its frame. -/
def callBody (line : Nat) (callee : Expr) (args : List Expr) : RunOn σ Value := do
  let f ← evalRoutine eval line callee
  callRoutine eval exec f args

/-- The value of an expression, by its parts. -/
def evalRule : Expr → RunOn σ Value
  | .number _ x => pure (.number x)
  | .text _ s => pure (.text s)
  | .bool _ b => pure (.bool b)
  | .var line name => step (lookup line name)
  | .function _ f => pure (.function f)
  | .unary line op e => do
    let v ← eval e
    check line (op.apply v)
  | .arith line op left right => do
    let v ← eval left
    let w ← eval right
    check line (op.apply v w)
  | .compare line op left right => do
    let v ← eval left
    let w ← eval right
    check line (op.apply v w)
  | .call line callee args => inCall line (callBody eval exec line callee args)
  | .index line base key => do
    let t ← evalTable eval line base
    let k ← evalKey eval line key
    step (getEntry t k)
  | .table line entries => do
    let t ← step newTable
    fill eval line t entries
    pure (.table t)

/-- Carries out a statement, by its parts. A loop takes at most `turns` turns. -/
def execRule (turns : Nat) : Stmt → RunOn σ Flow
  | .assign line how target value => do
    assign eval line how target value
    pure .normal
  | .block body => execAll exec body.stmts
  | .get _ file program => inFile (some file) (execAll exec program)
  | .cond line e yes no => inFrame .block do
    let b ← evalBool eval line e
    execAll exec (branch yes no b)
  | .loop line e body => inFrame .block
    (repeatWhile (evalBool eval line e) (execAll exec body.stmts) turns)
  | .ret line e => do
    let v ← eval e
    step (setResult line v)
    pure .returned
  | .expr _ e => do
    let _ ← eval e
    pure .normal

end Rules

mutual

/-- The value of an expression. -/
def eval : Nat → Expr → Run Value
  | 0, _ => outOfFuel
  | fuel + 1, e => evalRule (eval fuel) (exec fuel) e

/-- Carries out a statement. -/
def exec : Nat → Stmt → Run Flow
  | 0, _ => outOfFuel
  | fuel + 1, s => execRule (eval fuel) (exec fuel) fuel s

end

/-! ### Programs -/

/-- Carries out the statements of a program. -/
def execute (fuel : Nat) (program : Program) : Run Unit := do
  let _ ← execAll (exec fuel) program

/-- Carries out a program as the code of a file. -/
def executeFile (fuel : Nat) (file : String) (program : Program) : Run Unit :=
  inFile (some file) (execute fuel program)

end Run

end TableScript
