import TableScript.Program

/-!
# Numbering function literals

Function values are the same if they come from the same literal. To tell literals apart, an
interpreter gives each a tag of its own before it runs a program. The literals are numbered in the
order of the text, an outer one before those in its body.
-/

namespace TableScript

mutual

/-- Numbers the literals of an expression from `n` on. -/
def Expr.label : Expr → Nat → Expr × Nat
  | .number line x, n => (.number line x, n)
  | .text line s, n => (.text line s, n)
  | .bool line b, n => (.bool line b, n)
  | .var line name, n => (.var line name, n)
  | .function line (.mk _ start file params (.mk brace stmts)), n =>
    let (stmts, n') := labelAll stmts (n + 1)
    (.function line (.mk n start file params (.mk brace stmts)), n')
  | .unary line op e, n =>
    let (e, n) := e.label n
    (.unary line op e, n)
  | .arith line op l r, n =>
    let (l, n) := l.label n
    let (r, n) := r.label n
    (.arith line op l r, n)
  | .compare line op l r, n =>
    let (l, n) := l.label n
    let (r, n) := r.label n
    (.compare line op l r, n)
  | .call line callee args, n =>
    let (callee, n) := callee.label n
    let (args, n) := labelArgs args n
    (.call line callee args, n)
  | .index line base key, n =>
    let (base, n) := base.label n
    let (key, n) := key.label n
    (.index line base key, n)
  | .table line entries, n =>
    let (entries, n) := labelEntries entries n
    (.table line entries, n)

/-- Numbers the literals of expressions from `n` on. -/
def labelArgs : List Expr → Nat → List Expr × Nat
  | [], n => ([], n)
  | e :: es, n =>
    let (e, n) := e.label n
    let (es, n) := labelArgs es n
    (e :: es, n)

/-- Numbers the literals of table entries from `n` on. -/
def labelEntries : List (Expr × Expr) → Nat → List (Expr × Expr) × Nat
  | [], n => ([], n)
  | (k, v) :: es, n =>
    let (k, n) := k.label n
    let (v, n) := v.label n
    let (es, n) := labelEntries es n
    ((k, v) :: es, n)

/-- Numbers the literals of a statement from `n` on. -/
def Stmt.label : Stmt → Nat → Stmt × Nat
  | .assign line how target value, n =>
    let (target, n) := target.label n
    let (value, n) := value.label n
    (.assign line how target value, n)
  | .block (.mk line stmts), n =>
    let (stmts, n) := labelAll stmts n
    (.block (.mk line stmts), n)
  | .get line file program, n =>
    let (program, n) := labelAll program n
    (.get line file program, n)
  | .cond line e (.mk start yes) none, n =>
    let (e, n) := e.label n
    let (yes, n) := labelAll yes n
    (.cond line e (.mk start yes) none, n)
  | .cond line e (.mk start yes) (some (.mk start' no)), n =>
    let (e, n) := e.label n
    let (yes, n) := labelAll yes n
    let (no, n) := labelAll no n
    (.cond line e (.mk start yes) (some (.mk start' no)), n)
  | .loop line e (.mk start stmts), n =>
    let (e, n) := e.label n
    let (stmts, n) := labelAll stmts n
    (.loop line e (.mk start stmts), n)
  | .ret line e, n =>
    let (e, n) := e.label n
    (.ret line e, n)
  | .expr line e, n =>
    let (e, n) := e.label n
    (.expr line e, n)

/-- Numbers the literals of statements from `n` on. -/
def labelAll : List Stmt → Nat → List Stmt × Nat
  | [], n => ([], n)
  | s :: ss, n =>
    let (s, n) := s.label n
    let (ss, n) := labelAll ss n
    (s :: ss, n)

end

/-- Numbers the literals of a program from `n` on, and gives the next free number. -/
def Program.label (program : Program) (n : Nat) : Program × Nat := labelAll program n

end TableScript
