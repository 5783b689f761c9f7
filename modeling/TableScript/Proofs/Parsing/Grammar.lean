import TableScript.Program.Expression

/-!
# The grammar as derivations

What it means for tokens to be a program, said without a parser.  `Derives k ts t` holds if the
tokens `ts` are of the category `k` and denote the tree `t`.  There is one rule for each alternative
of the grammar:

    statements := (statement ";")*
    statement  := block | "Get" string | "If" "(" expression ")" block ("Else" block)?
                | "Loop" "(" expression ")" block | "Return" expression
                | expression (("=" | "=&") expression)?
    block      := "{" statements "}"
    expression := sum (compareOp sum)?
    sum        := product | sum ("+" | "-") product
    product    := signed | product ("*" | "/") signed
    signed     := ("+" | "-")? postfixed
    postfixed  := primary | postfixed "(" list of expressions ")" | postfixed "[" expression "]"
    primary    := number | string | truth value | name | "(" expression ")"
                | "Function" "(" list of names ")" block | "[" list of entries "]"
    entry      := expression ":" expression

A list has commas between its items and none before or behind them.  Sums, products and calls are
left recursive here, so a derivation groups them to the left by itself.  A rule also says which
line each node gets.  Parentheses leave no node.

A function literal notes the file it is in, and an import is a statement if its file can be
fetched; these two are what a derivation depends on besides the tokens.
-/

namespace TableScript

/-- What lists are made of. -/
inductive Item where
  | name | expression | entry

/-- What an item denotes. -/
@[reducible] def Item.Tree : Item → Type
  | .name => String
  | .expression => Expr
  | .entry => Expr × Expr

/-- What tokens can be. -/
inductive Category where
  | primary | postfixed | signed | product | sum
  | item (k : Item)
  /-- One item or more, with commas between them. -/
  | several (k : Item)
  /-- No items, or several. -/
  | list (k : Item)
  | block | statement | statements

/-- What tokens of a category denote. -/
@[reducible] def Category.Tree : Category → Type
  | .primary | .postfixed | .signed | .product | .sum => Expr
  | .item k => k.Tree
  | .several k | .list k => List k.Tree
  | .block => Block
  | .statement => Stmt
  | .statements => List Stmt

/-- The mark between the target and the value of an assignment. -/
def Assignment.mark : Assignment → Symbol
  | .define => .assign
  | .reassign => .refAssign

/-- A symbol on a line. -/
@[reducible] def Symbol.at (m : Symbol) (line : Nat) : Located := ⟨.symbol m, line⟩

/-- A keyword on a line. -/
@[reducible] def Keyword.at (w : Keyword) (line : Nat) : Located := ⟨.keyword w, line⟩

section

variable (file : Option String) (fetch : Nat → String → Except Error Program)

/-- Tokens of a category and the tree that they denote. -/
inductive Derives : (k : Category) → List Located → k.Tree → Prop
  -- primary expressions
  | number (l : Nat) (x : Float) : Derives .primary [⟨.number x, l⟩] (.number l x)
  | bool (l : Nat) (b : Bool) : Derives .primary [⟨.bool b, l⟩] (.bool l b)
  | text (l : Nat) (s : String) : Derives .primary [⟨.text s, l⟩] (.text l s)
  | var (l : Nat) (s : String) : Derives .primary [⟨.name s, l⟩] (.var l s)
  | function {ps bs params body} (l l₁ l₂ : Nat) :
      Derives (.list .name) ps params → Derives .block bs body →
      Derives .primary
        (Keyword.functionWord.at l :: Symbol.leftParen.at l₁ :: (ps ++ Symbol.rightParen.at l₂ :: bs))
        (.function l (.mk 0 l file params body))
  | table {ts entries} (l l₁ : Nat) : Derives (.list .entry) ts entries →
      Derives .primary (Symbol.leftBracket.at l :: (ts ++ [Symbol.rightBracket.at l₁]))
        (.table l entries)
  | paren {ts e} (l l₁ : Nat) : Derives (.item .expression) ts e →
      Derives .primary (Symbol.leftParen.at l :: (ts ++ [Symbol.rightParen.at l₁])) e
  -- calls and indices
  | bare {ts e} : Derives .primary ts e → Derives .postfixed ts e
  | call {ts us e args} (l l₁ : Nat) :
      Derives .postfixed ts e → Derives (.list .expression) us args →
      Derives .postfixed
        (ts ++ Symbol.leftParen.at l :: (us ++ [Symbol.rightParen.at l₁])) (.call l e args)
  | index {ts us e key} (l l₁ : Nat) :
      Derives .postfixed ts e → Derives (.item .expression) us key →
      Derives .postfixed
        (ts ++ Symbol.leftBracket.at l :: (us ++ [Symbol.rightBracket.at l₁])) (.index l e key)
  -- signs and operators
  | unsigned {ts e} : Derives .postfixed ts e → Derives .signed ts e
  | sign {ts e} (l : Nat) (m : Symbol) (op : Sign) : m.text = op.text →
      Derives .postfixed ts e → Derives .signed (m.at l :: ts) (.unary l op e)
  | factor {ts e} : Derives .signed ts e → Derives .product ts e
  | times {ts us e e'} (l : Nat) (m : Symbol) (op : ArithOp) :
      m.text = op.text → op = .mul ∨ op = .div →
      Derives .product ts e → Derives .signed us e' →
      Derives .product (ts ++ m.at l :: us) (.arith l op e e')
  | summand {ts e} : Derives .product ts e → Derives .sum ts e
  | plus {ts us e e'} (l : Nat) (m : Symbol) (op : ArithOp) :
      m.text = op.text → op = .add ∨ op = .sub →
      Derives .sum ts e → Derives .product us e' →
      Derives .sum (ts ++ m.at l :: us) (.arith l op e e')
  | single {ts e} : Derives .sum ts e → Derives (.item .expression) ts e
  | compared {ts us e e'} (l : Nat) (m : Symbol) (op : CompareOp) : m.text = op.text →
      Derives .sum ts e → Derives .sum us e' →
      Derives (.item .expression) (ts ++ m.at l :: us) (.compare l op e e')
  -- lists
  | name (l : Nat) (s : String) : Derives (.item .name) [⟨.name s, l⟩] s
  | entry {ts us key value} (l : Nat) :
      Derives (.item .expression) ts key →
      Derives (.item .expression) us value →
      Derives (.item .entry) (ts ++ Symbol.colon.at l :: us) (key, value)
  | one {k ts a} : Derives (.item k) ts a → Derives (.several k) ts [a]
  | more {k ts us a as} (l : Nat) :
      Derives (.item k) ts a → Derives (.several k) us as →
      Derives (.several k) (ts ++ Symbol.comma.at l :: us) (a :: as)
  | noItems {k} : Derives (.list k) [] []
  | items {k ts as} : Derives (.several k) ts as → Derives (.list k) ts as
  -- statements
  | block {ts ss} (l l₁ : Nat) : Derives .statements ts ss →
      Derives .block (Symbol.leftBrace.at l :: (ts ++ [Symbol.rightBrace.at l₁]))
        (.mk l ss)
  | nested {ts b} : Derives .block ts b → Derives .statement ts (.block b)
  | get {name program} (l l₁ : Nat) : fetch l name = .ok program →
      Derives .statement [Keyword.getWord.at l, ⟨.text name, l₁⟩] (.get l name program)
  | cond {cs ts e b} (l l₁ l₂ : Nat) :
      Derives (.item .expression) cs e → Derives .block ts b →
      Derives .statement
        (Keyword.ifWord.at l :: Symbol.leftParen.at l₁ :: (cs ++ Symbol.rightParen.at l₂ :: ts))
        (.cond l e b none)
  | condElse {cs ts us e b b'} (l l₁ l₂ l₃ : Nat) :
      Derives (.item .expression) cs e → Derives .block ts b →
      Derives .block us b' →
      Derives .statement
        (Keyword.ifWord.at l :: Symbol.leftParen.at l₁ ::
          (cs ++ Symbol.rightParen.at l₂ :: (ts ++ Keyword.elseWord.at l₃ :: us)))
        (.cond l e b (some b'))
  | loop {cs ts e b} (l l₁ l₂ : Nat) :
      Derives (.item .expression) cs e → Derives .block ts b →
      Derives .statement
        (Keyword.loopWord.at l :: Symbol.leftParen.at l₁ :: (cs ++ Symbol.rightParen.at l₂ :: ts))
        (.loop l e b)
  | ret {ts e} (l : Nat) : Derives (.item .expression) ts e →
      Derives .statement (Keyword.returnWord.at l :: ts) (.ret l e)
  | expr {t ts e} : Derives (.item .expression) (t :: ts) e →
      Derives .statement (t :: ts) (.expr t.line e)
  | assign {t ts us e value} (l : Nat) (how : Assignment) :
      Derives (.item .expression) (t :: ts) e →
      Derives (.item .expression) us value →
      Derives .statement (t :: (ts ++ how.mark.at l :: us))
        (.assign t.line how e value)
  | empty : Derives .statements [] []
  | followed {ts us s ss} (l : Nat) :
      Derives .statement ts s → Derives .statements us ss →
      Derives .statements (ts ++ Symbol.semicolon.at l :: us) (s :: ss)

end

/-! ### Operators by their spelling

The rules know an operator by its spelling; the parser has a table for each kind. -/

namespace Parser

variable {tok : Token}

theorem sign?_eq_some_iff {op : Sign} :
    sign? tok = some op ↔ ∃ m, tok = .symbol m ∧ m.text = op.text := by
  cases tok with
  | symbol m =>
    have htable : sign? (.symbol m) = some op ↔ m.text = op.text := by
      cases m <;> cases op <;> decide
    simpa using htable
  | _ => simp [sign?]

theorem compareOp?_eq_some_iff {op : CompareOp} :
    compareOp? tok = some op ↔ ∃ m, tok = .symbol m ∧ m.text = op.text := by
  cases tok with
  | symbol m =>
    have htable : compareOp? (.symbol m) = some op ↔ m.text = op.text := by
      cases m <;> cases op <;> decide
    simpa using htable
  | _ => simp [compareOp?]

theorem productOp?_eq_some_iff {op : ArithOp} :
    productOp? tok = some op ↔
      ∃ m, tok = .symbol m ∧ m.text = op.text ∧ (op = .mul ∨ op = .div) := by
  cases tok with
  | symbol m =>
    have htable : productOp? (.symbol m) = some op ↔
        m.text = op.text ∧ (op = .mul ∨ op = .div) := by
      cases m <;> cases op <;> decide
    simpa using htable
  | _ => simp [productOp?]

theorem sumOp?_eq_some_iff {op : ArithOp} :
    sumOp? tok = some op ↔
      ∃ m, tok = .symbol m ∧ m.text = op.text ∧ (op = .add ∨ op = .sub) := by
  cases tok with
  | symbol m =>
    have htable : sumOp? (.symbol m) = some op ↔ m.text = op.text ∧ (op = .add ∨ op = .sub) := by
      cases m <;> cases op <;> decide
    simpa using htable
  | _ => simp [sumOp?]

end Parser

/-! ### First tokens -/

namespace Token

/-- Tokens that a primary expression can start with. -/
def startsPrimary : Token → Bool
  | .number _ | .bool _ | .text _ | .name _ => true
  | .keyword .functionWord | .symbol .leftBracket | .symbol .leftParen => true
  | _ => false

/-- Tokens that an expression can start with. -/
def startsExpression (t : Token) : Bool := t.startsPrimary || (Parser.sign? t).isSome

/-- The token that a block starts with. -/
def startsBlock : Token → Bool
  | .symbol .leftBrace => true
  | _ => false

/-- Tokens that a statement can start with. -/
def startsStatement : Token → Bool
  | .symbol .leftBrace => true
  | .keyword .getWord | .keyword .ifWord | .keyword .loopWord | .keyword .returnWord => true
  | t => t.startsExpression

theorem startsExpression_of_startsPrimary {t : Token} (h : t.startsPrimary = true) :
    t.startsExpression = true := by
  rw [startsExpression, h, Bool.true_or]

theorem startsStatement_of_startsExpression {t : Token} (h : t.startsExpression = true) :
    t.startsStatement = true := by
  unfold startsStatement
  split <;> first | rfl | exact h

theorem startsStatement_of_startsBlock {t : Token} (h : t.startsBlock = true) :
    t.startsStatement = true := by
  unfold startsBlock at h
  split at h
  · rfl
  · cases h

end Token

namespace Category

/-- Tokens that a category can start with. -/
def starts : Category → Token → Bool
  | .primary | .postfixed => Token.startsPrimary
  | .signed | .product | .sum | .item _ | .several _ | .list _ => Token.startsExpression
  | .block => Token.startsBlock
  | .statement | .statements => Token.startsStatement

/-- Whether no tokens at all are of the category. -/
def mayBeEmpty : Category → Bool
  | .list _ | .statements => true
  | _ => false

/-- Whether tokens start as those of the category do. -/
def startsWith (k : Category) : List Located → Bool
  | [] => k.mayBeEmpty
  | t :: _ => k.starts t.token

theorem startsWith_append {k : Category} {ts us : List Located} (hk : k.mayBeEmpty = false)
    (h : k.startsWith ts = true) : k.startsWith (ts ++ us) = true := by
  cases ts with
  | nil => simp [startsWith, hk] at h
  | cons t ts => exact h

theorem startsWith_mono {k k' : Category} {ts : List Located} (hk : k.mayBeEmpty = false)
    (hle : ∀ t, k.starts t = true → k'.starts t = true) (h : k.startsWith ts = true) :
    k'.startsWith ts = true := by
  cases ts with
  | nil => simp [startsWith, hk] at h
  | cons t ts => exact hle t.token h

end Category

section

variable {file : Option String} {fetch : Nat → String → Except Error Program}
variable {k : Category} {ts : List Located} {a : k.Tree}

/-- Derivable tokens start as their category says. -/
theorem Derives.startsWith (h : Derives file fetch k ts a) : k.startsWith ts = true := by
  induction h with
  | number | bool | text | var | function | table | paren => rfl
  | bare _ ih => exact ih
  | call _ _ _ _ ih | index _ _ _ _ ih => exact Category.startsWith_append rfl ih
  | unsigned _ ih =>
    exact Category.startsWith_mono (k := .postfixed) rfl
      (fun _ => Token.startsExpression_of_startsPrimary) ih
  | sign l m op htext =>
    show (Token.symbol m).startsExpression = true
    rw [Token.startsExpression, Parser.sign?_eq_some_iff.2 ⟨m, rfl, htext⟩]
    simp
  | factor _ ih | summand _ ih | single _ ih => exact ih
  | times _ _ _ _ _ _ _ ih | plus _ _ _ _ _ _ _ ih => exact Category.startsWith_append rfl ih
  | compared _ _ _ _ _ _ ih => exact Category.startsWith_append rfl ih
  | name => rfl
  | entry _ _ _ ih | more _ _ _ ih => exact Category.startsWith_append rfl ih
  | one _ ih => exact ih
  | noItems | empty => rfl
  | @items k _ _ _ ih => exact Category.startsWith_mono (k := .several k) rfl (fun _ => id) ih
  | block => rfl
  | nested _ ih =>
    exact Category.startsWith_mono (k := .block) rfl
      (fun _ => Token.startsStatement_of_startsBlock) ih
  | get | cond | condElse | loop | ret => rfl
  | expr _ ih | assign _ _ _ _ ih => exact Token.startsStatement_of_startsExpression ih
  | followed _ _ _ ih =>
    exact Category.startsWith_mono (k := .statement) rfl (fun _ => id)
      (Category.startsWith_append rfl ih)

/-- Only lists and statements may be empty. -/
theorem Derives.exists_cons (h : Derives file fetch k ts a) (hk : k.mayBeEmpty = false) :
    ∃ t rest, ts = t :: rest ∧ k.starts t.token = true := by
  have hstarts := h.startsWith
  cases ts with
  | nil => simp [Category.startsWith, hk] at hstarts
  | cons t rest => exact ⟨t, rest, rfl, hstarts⟩

/-- A statement has its semicolon at least. -/
theorem Derives.ne_nil_of_cons {s : Stmt} {ss : List Stmt}
    (h : Derives file fetch .statements ts (s :: ss)) : ts ≠ [] := by
  cases h
  simp

end

end TableScript
