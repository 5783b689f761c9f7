import TableScript.Limits
import TableScript.Program.Parser

/-!
# The grammar of expressions

From loose to tight: one comparison at most, sums, products, one sign at most, then a primary
expression with calls and indices behind it. Sums and products group to the left.

    comparison := sum (compareOp sum)?
    sum        := product (("+" | "-") product)*
    product    := signed (("*" | "/") signed)*
    signed     := ("+" | "-")? postfix
    postfix    := primary ("(" list of expressions ")" | "[" expression "]")*
    primary    := number | string | truth value | name | function | table | "(" expression ")"

What stands inside of brackets and braces is one level deeper. The parsers here take the parsers of
the next level as an argument, `InnerOn`; the levels are put together in the module on statements.
-/

namespace TableScript

/-- What a parser has to know besides the tokens. -/
structure Setting where
  limits : Limits
  /-- The file that the tokens come from, if they come from one. -/
  file : Option String
  /-- The program of a file that is imported on the given line. -/
  fetch : Nat → String → Except Error Program

/-- The parsers of the next level of nesting. -/
structure InnerOn (σ : Type) where
  expression : ParserOn σ Expr
  block : ParserOn σ Block

/-- The parsers of the next level of nesting, for states that are cursors. -/
abbrev Inner := InnerOn Cursor

namespace Parser

variable {σ : Type} [HasCursor σ]

/-! ### Operators -/

/-- The comparison operator that a token is, if it is one. -/
def compareOp? : Token → Option CompareOp
  | .symbol .equal => some .equal
  | .symbol .notEqual => some .notEqual
  | .symbol .greater => some .greater
  | .symbol .greaterEqual => some .greaterEqual
  | .symbol .less => some .less
  | .symbol .lessEqual => some .lessEqual
  | _ => none

/-- The operator of sums that a token is, if it is one. -/
def sumOp? : Token → Option ArithOp
  | .symbol .plus => some .add
  | .symbol .minus => some .sub
  | _ => none

/-- The operator of products that a token is, if it is one. -/
def productOp? : Token → Option ArithOp
  | .symbol .star => some .mul
  | .symbol .slash => some .div
  | _ => none

/-- The sign that a token is, if it is one. -/
def sign? : Token → Option Sign
  | .symbol .plus => some .plus
  | .symbol .minus => some .minus
  | _ => none

/-! ### Primary expressions -/

/-- A function literal; the file it is in is noted in it. -/
def function (st : Setting) (inner : InnerOn σ) : ParserOn σ Expr := do
  let word ← advance
  expect .leftParen
  let params ← commaList name .rightParen
  let body ← inner.block
  pure (.function word.line (.mk 0 word.line st.file params body))

/-- An entry of a table literal. -/
def entry (inner : InnerOn σ) : ParserOn σ (Expr × Expr) := do
  let key ← inner.expression
  expect .colon
  let value ← inner.expression
  pure (key, value)

/-- A table literal. -/
def table (inner : InnerOn σ) : ParserOn σ Expr := do
  let bracket ← advance
  let entries ← commaList (entry inner) .rightBracket
  pure (.table bracket.line entries)

/-- An expression in parentheses, which leave no trace. -/
def parenthesized (inner : InnerOn σ) : ParserOn σ Expr := do
  let _ ← advance
  let e ← inner.expression
  expect .rightParen
  pure e

/-- An expression of one token. -/
def literal (make : Nat → Expr) : ParserOn σ Expr := do
  let token ← advance
  pure (make token.line)

/-- A primary expression. -/
def primary (st : Setting) (inner : InnerOn σ) : ParserOn σ Expr := do
  match ← current with
  | .number x => literal fun line => .number line x
  | .bool b => literal fun line => .bool line b
  | .text s => literal fun line => .text line s
  | .name s => literal fun line => .var line s
  | .keyword .functionWord => function st inner
  | .symbol .leftBracket => table inner
  | .symbol .leftParen => parenthesized inner
  | .endOfInput => failHere fun _ => .unexpectedEnd
  | _ => failHere .unexpectedToken

/-! ### Calls, indices and operators -/

/-- One call or index behind `e`, if there is one. -/
def postfixTurn (inner : InnerOn σ) (e : Expr) : ParserOn σ (Turn Expr Expr) := do
  match ← current with
  | .symbol .leftParen => do
    let paren ← advance
    let args ← commaList inner.expression .rightParen
    pure (.again (.call paren.line e args))
  | .symbol .leftBracket => do
    let bracket ← advance
    let key ← inner.expression
    expect .rightBracket
    pure (.again (.index bracket.line e key))
  | _ => pure (.finish e)

/-- A primary expression with calls and indices behind it. -/
def postfixed (st : Setting) (inner : InnerOn σ) : ParserOn σ Expr := do
  let e ← primary st inner
  iterate (postfixTurn inner) e

/-- At most one sign before a postfix expression. -/
def signed (st : Setting) (inner : InnerOn σ) : ParserOn σ Expr := do
  match sign? (← current) with
  | some op => do
    let sign ← advance
    let e ← postfixed st inner
    pure (.unary sign.line op e)
  | none => postfixed st inner

/-- One more operand behind `left`, if an operator follows. -/
def chainTurn (op? : Token → Option ArithOp) (operand : ParserOn σ Expr) (left : Expr) :
    ParserOn σ (Turn Expr Expr) := do
  match op? (← current) with
  | some op => do
    let mark ← advance
    let right ← operand
    pure (.again (.arith mark.line op left right))
  | none => pure (.finish left)

/-- Operands with operators between them, grouped to the left. -/
def chain (op? : Token → Option ArithOp) (operand : ParserOn σ Expr) : ParserOn σ Expr := do
  let left ← operand
  iterate (chainTurn op? operand) left

/-- Signed expressions multiplied and divided. -/
def product (st : Setting) (inner : InnerOn σ) : ParserOn σ Expr := chain productOp? (signed st inner)

/-- Products added and subtracted. -/
def sum (st : Setting) (inner : InnerOn σ) : ParserOn σ Expr := chain sumOp? (product st inner)

/-- Two sums compared, or just one. A second comparison is refused. -/
def comparison (st : Setting) (inner : InnerOn σ) : ParserOn σ Expr := do
  let left ← sum st inner
  match compareOp? (← current) with
  | some op => do
    let mark ← advance
    let right ← sum st inner
    if (compareOp? (← current)).isSome then failHere fun _ => .chainedComparison
    else pure (.compare mark.line op left right)
  | none => pure left

end Parser

end TableScript
