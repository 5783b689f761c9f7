import TableScript.Operator

/-!
# Programs

The tree of a script. Every node keeps the line that messages about it name: an operator its own,
a call that of `(`, an index or a table that of `[`, a block that of its opening brace, a statement
that of its first token. An import holds the program of the imported file, so a tree is complete in
itself.
-/

namespace TableScript

/-- The two ways to assign to a name: bind it in the current frame (`=`), or overwrite a binding of
an enclosing one (`=&`). -/
inductive Assignment where
  | define | reassign
deriving Repr, DecidableEq

mutual

/-- An expression. -/
inductive Expr where
  | number (line : Nat) (value : Float)
  | text (line : Nat) (value : String)
  | bool (line : Nat) (value : Bool)
  | var (line : Nat) (name : String)
  | function (line : Nat) (routine : Routine)
  | unary (line : Nat) (op : Sign) (operand : Expr)
  | arith (line : Nat) (op : ArithOp) (left right : Expr)
  | compare (line : Nat) (op : CompareOp) (left right : Expr)
  | call (line : Nat) (callee : Expr) (args : List Expr)
  | index (line : Nat) (base key : Expr)
  | table (line : Nat) (entries : List (Expr × Expr))

/-- What a function literal defines. The tag tells literals apart: function values are the same if
they come from the same literal. A program just read has the tag zero everywhere; an interpreter
numbers the literals before it runs them. -/
inductive Routine where
  | mk (tag : Nat) (line : Nat) (file : Option String) (params : List String) (body : Block)

/-- Statements between braces. -/
inductive Block where
  | mk (line : Nat) (stmts : List Stmt)

/-- A statement. -/
inductive Stmt where
  | assign (line : Nat) (how : Assignment) (target value : Expr)
  | block (body : Block)
  /-- The statements of another file, in place. -/
  | get (line : Nat) (file : String) (program : List Stmt)
  | cond (line : Nat) (condition : Expr) (yes : Block) (no : Option Block)
  | loop (line : Nat) (condition : Expr) (body : Block)
  | ret (line : Nat) (value : Expr)
  | expr (line : Nat) (value : Expr)

end

/-- A program is a list of statements. -/
abbrev Program := List Stmt

namespace Block

/-- The line of the opening brace. -/
def line : Block → Nat
  | .mk line _ => line

/-- What stands between the braces. -/
def stmts : Block → List Stmt
  | .mk _ stmts => stmts

end Block

namespace Routine

/-- Which literal this is. -/
def tag : Routine → Nat
  | .mk tag _ _ _ _ => tag

/-- The line of the word `Function`. -/
def line : Routine → Nat
  | .mk _ line _ _ _ => line

/-- The file that the literal was written in, if its text came from one. -/
def file : Routine → Option String
  | .mk _ _ file _ _ => file

/-- The names of the parameters. -/
def params : Routine → List String
  | .mk _ _ _ params _ => params

/-- What a call carries out. -/
def body : Routine → Block
  | .mk _ _ _ _ body => body

end Routine

end TableScript
