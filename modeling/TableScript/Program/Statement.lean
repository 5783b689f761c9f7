import TableScript.Program.Expression

/-!
# The grammar of statements

    program   := (statement ";")* end
    block     := "{" (statement ";")* "}"
    statement := block | "Get" string | "If" condition block ("Else" block)?
               | "Loop" condition block | "Return" expression
               | expression (("=" | "=&") expression)?
    condition := "(" expression ")"

`expression` and `block` tie the knot: with `n` levels left, each runs its grammar with the parsers
for `n - 1` levels inside. With none left they refuse, so the limit on nesting is also what the
recursion is on.
-/

namespace TableScript.Parser

variable {σ : Type} [HasCursor σ]

/-- An expression in parentheses, as `If` and `Loop` have it. -/
def condition (inner : InnerOn σ) : ParserOn σ Expr := do
  expect .leftParen
  let e ← inner.expression
  expect .rightParen
  pure e

/-- An `If` statement. -/
def cond (inner : InnerOn σ) : ParserOn σ Stmt := do
  let word ← advance
  let e ← condition inner
  let yes ← inner.block
  if ← eatWord .elseWord then
    let no ← inner.block
    pure (.cond word.line e yes (some no))
  else pure (.cond word.line e yes none)

/-- A `Loop` statement. -/
def loop (inner : InnerOn σ) : ParserOn σ Stmt := do
  let word ← advance
  let e ← condition inner
  let body ← inner.block
  pure (.loop word.line e body)

/-- A `Return` statement. -/
def ret (inner : InnerOn σ) : ParserOn σ Stmt := do
  let word ← advance
  let e ← inner.expression
  pure (.ret word.line e)

/-- An import. The token after `Get` is consumed whatever it is. -/
def get (st : Setting) : ParserOn σ Stmt := do
  let word ← advance
  let target ← advance
  match target.token with
  | .text file => do
    let program ← Action.ofExcept (st.fetch word.line file)
    pure (.get word.line file program)
  | found => failAt word.line (.invalidImportTarget found)

/-- An expression, or an assignment to one. Whether the target can be assigned to is decided at run
time. -/
def simple (inner : InnerOn σ) : ParserOn σ Stmt := do
  let start ← line
  let e ← inner.expression
  if ← eat .assign then
    let value ← inner.expression
    pure (.assign start .define e value)
  else if ← eat .refAssign then
    let value ← inner.expression
    pure (.assign start .reassign e value)
  else pure (.expr start e)

/-- A statement, without the semicolon behind it. -/
def statement (st : Setting) (inner : InnerOn σ) : ParserOn σ Stmt := do
  match ← current with
  | .symbol .leftBrace => do
    let body ← inner.block
    pure (.block body)
  | .keyword .getWord => get st
  | .keyword .ifWord => cond inner
  | .keyword .loopWord => loop inner
  | .keyword .returnWord => ret inner
  | _ => simple inner

/-- A statement and its semicolon. -/
def closedStatement (st : Setting) (inner : InnerOn σ) : ParserOn σ Stmt := do
  let s ← statement st inner
  expect .semicolon
  pure s

/-- One more statement of a block after those in `stmts`, which are in reverse, or its closing
brace. -/
def blockTurn (st : Setting) (inner : InnerOn σ) (stmts : List Stmt) :
    ParserOn σ (Turn (List Stmt) (List Stmt)) := do
  if ← eat .rightBrace then pure (.finish stmts.reverse)
  else if ← atEnd then failHere (.expected (.mark .rightBrace))
  else
    let s ← closedStatement st inner
    pure (.again (s :: stmts))

/-- Statements between braces. -/
def blockBody (st : Setting) (inner : InnerOn σ) : ParserOn σ Block := do
  let start ← line
  expect .leftBrace
  let stmts ← iterate (blockTurn st inner) []
  pure (.mk start stmts)

/-- One more statement of a program after those in `stmts`, which are in reverse, or its end. -/
def programTurn (st : Setting) (inner : InnerOn σ) (stmts : List Stmt) :
    ParserOn σ (Turn (List Stmt) Program) := do
  if ← atEnd then pure (.finish stmts.reverse)
  else
    let s ← closedStatement st inner
    pure (.again (s :: stmts))

/-- Statements up to the end of the input. -/
def programBody (st : Setting) (inner : InnerOn σ) : ParserOn σ Program :=
  iterate (programTurn st inner) []

/-! ### The levels of nesting -/

mutual

/-- An expression with at most `n` levels of nesting. -/
def expression (st : Setting) : Nat → Cursor → Except Error Expr × Cursor
  | 0, c => failHere (fun _ => .nestingTooDeep st.limits.nesting) c
  | n + 1, c => comparison st ⟨expression st n, block st n⟩ c

/-- A block with at most `n` levels of nesting. -/
def block (st : Setting) : Nat → Cursor → Except Error Block × Cursor
  | 0, c => failHere (fun _ => .nestingTooDeep st.limits.nesting) c
  | n + 1, c => blockBody st ⟨expression st n, block st n⟩ c

end

/-- The parsers for `n` levels of nesting. -/
def levels (st : Setting) (n : Nat) : Inner := ⟨expression st n, block st n⟩

/-- The parsers for all the levels that the limits allow. -/
def outermost (st : Setting) : Inner := levels st st.limits.nesting

/-- Statements up to the end of the input. -/
def program (st : Setting) : Parser Program := programBody st (outermost st)

end TableScript.Parser
