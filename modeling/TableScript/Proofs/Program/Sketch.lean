import TableScript.Proofs.Parsing.Grammar
import TableScript.Proofs.Scanning.Tokens

/-!
# Programs as they are written

A sketch is a program before it has a text: a tree without lines and files, in which numbers are spelled
and not yet valued.  Its names are words that are not reserved, and its strings hold no quote and no line
break.  It imports nothing.  What it stands for is its tree, where every line is the first one.

The text of a sketch is on one line.  Every expression but the simplest is put in parentheses wherever it
stands, every statement has its semicolon, and between any two lexemes there is a space
(`Sketch.render`).  So there are more parentheses than needed, and no operator, sign, call or index is
next to an operand that could be taken apart.

The text takes some levels of nesting (`nestingAll`).  An expression takes one where it stands by itself,
as a condition, an argument or a part of a statement, and one more for the parentheses around it; a block
takes one.
-/

namespace TableScript

/-! ### Lexemes -/

/-- A word can be a name if no digit comes first and the word is not reserved. -/
structure IsIdentifier (s : String) : Prop where
  isWord : s.toList ∈ Pattern.language .name
  notTruth : ∀ b, s ≠ boolText b
  notKeyword : ∀ w : Keyword, s ≠ w.text

/-- A text can be put in quotes if it has none and is on one line. -/
def IsQuotable (s : String) : Prop := ∀ c ∈ s.toList, c ≠ '\"' ∧ c ≠ '\n'

instance (s : String) : Decidable (IsQuotable s) :=
  List.decidableBAll (fun c => c ≠ '\"' ∧ c ≠ '\n') s.toList

/-- A name. -/
structure Identifier where
  text : String
  isIdentifier : IsIdentifier text

/-- A number as it is spelled: digits, and a fraction at most. -/
structure Numeral where
  digits : List Char
  isDecimal : digits ∈ Pattern.decimal

/-- A text that can be put in quotes. -/
structure Quotable where
  text : String
  isQuotable : IsQuotable text

/-- The number that is spelled. -/
def Numeral.value (x : Numeral) : Float := Piece.decimalValue x.digits

/-- What a text is made of, besides spaces. -/
inductive Lexeme where
  | symbol (mark : Symbol)
  | keyword (word : Keyword)
  | bool (value : Bool)
  | number (value : Numeral)
  | name (value : Identifier)
  | text (value : Quotable)

namespace Lexeme

/-- A lexeme as it is spelled. -/
def spelling : Lexeme → String
  | .symbol m => m.text
  | .keyword w => w.text
  | .bool b => boolText b
  | .number x => String.ofList x.digits
  | .name x => x.text
  | .text s => "\"" ++ s.text ++ "\""

/-- The token that a lexeme is. -/
def token : Lexeme → Token
  | .symbol m => .symbol m
  | .keyword w => .keyword w
  | .bool b => .bool b
  | .number x => .number x.value
  | .name x => .name x.text
  | .text s => .text s.text

end Lexeme

/-- The mark that a sign is. -/
def Sign.mark : Sign → Symbol
  | .plus => .plus
  | .minus => .minus

/-- The mark that an arithmetic operator is. -/
def ArithOp.mark : ArithOp → Symbol
  | .add => .plus
  | .sub => .minus
  | .mul => .star
  | .div => .slash

/-- The mark that a comparison operator is. -/
def CompareOp.mark : CompareOp → Symbol
  | .equal => .equal
  | .notEqual => .notEqual
  | .greater => .greater
  | .greaterEqual => .greaterEqual
  | .less => .less
  | .lessEqual => .lessEqual

theorem Sign.text_mark (op : Sign) : op.mark.text = op.text := by cases op <;> rfl

theorem CompareOp.text_mark (op : CompareOp) : op.mark.text = op.text := by cases op <;> rfl

/-! ### Sketches -/

namespace Sketch

mutual

/-- An expression as it is thought of. -/
inductive Expr where
  | number (value : Numeral)
  | text (value : Quotable)
  | bool (value : Bool)
  | var (name : Identifier)
  | function (params : List Identifier) (body : List Stmt)
  | unary (op : Sign) (operand : Expr)
  | arith (op : ArithOp) (left right : Expr)
  | compare (op : CompareOp) (left right : Expr)
  | call (callee : Expr) (args : List Expr)
  | index (base key : Expr)
  | table (entries : List (Expr × Expr))

/-- A statement as it is thought of. -/
inductive Stmt where
  | assign (how : Assignment) (target value : Expr)
  | block (body : List Stmt)
  | cond (condition : Expr) (yes : List Stmt) (no : Option (List Stmt))
  | loop (condition : Expr) (body : List Stmt)
  | ret (value : Expr)
  | expr (value : Expr)

end

/-! ### What a sketch stands for -/

mutual

/-- The expression that a sketch stands for. -/
def Expr.tree : Expr → TableScript.Expr
  | .number x => .number 1 x.value
  | .text s => .text 1 s.text
  | .bool b => .bool 1 b
  | .var x => .var 1 x.text
  | .function params body =>
    .function 1 (.mk 0 1 none (params.map Identifier.text) (.mk 1 (treeAll body)))
  | .unary op e => .unary 1 op e.tree
  | .arith op l r => .arith 1 op l.tree r.tree
  | .compare op l r => .compare 1 op l.tree r.tree
  | .call callee args => .call 1 callee.tree (treeArgs args)
  | .index base key => .index 1 base.tree key.tree
  | .table entries => .table 1 (treeEntries entries)

/-- The expressions that sketches stand for. -/
def treeArgs : List Expr → List TableScript.Expr
  | [] => []
  | e :: es => e.tree :: treeArgs es

/-- The table entries that sketches stand for. -/
def treeEntries : List (Expr × Expr) → List (TableScript.Expr × TableScript.Expr)
  | [] => []
  | (k, v) :: es => (k.tree, v.tree) :: treeEntries es

/-- The statement that a sketch stands for. -/
def Stmt.tree : Stmt → TableScript.Stmt
  | .assign how target value => .assign 1 how target.tree value.tree
  | .block body => .block (.mk 1 (treeAll body))
  | .cond e yes none => .cond 1 e.tree (.mk 1 (treeAll yes)) none
  | .cond e yes (some no) => .cond 1 e.tree (.mk 1 (treeAll yes)) (some (.mk 1 (treeAll no)))
  | .loop e body => .loop 1 e.tree (.mk 1 (treeAll body))
  | .ret e => .ret 1 e.tree
  | .expr e => .expr 1 e.tree

/-- The statements that sketches stand for. -/
def treeAll : List Stmt → List TableScript.Stmt
  | [] => []
  | s :: ss => s.tree :: treeAll ss

end

end Sketch

/-! ### Which programs have a sketch -/

mutual

/-- The expression stands on the first line and in no file, and its names, numbers and strings can be
written. -/
def Expr.Plain : Expr → Prop
  | .number line x => line = 1 ∧ ∃ digits ∈ Pattern.decimal, Piece.decimalValue digits = x
  | .text line s => line = 1 ∧ IsQuotable s
  | .bool line _ => line = 1
  | .var line name => line = 1 ∧ IsIdentifier name
  | .function line (.mk tag start file params (.mk brace stmts)) =>
    (line = 1 ∧ tag = 0 ∧ start = 1 ∧ file = none ∧ brace = 1) ∧
      (∀ x ∈ params, IsIdentifier x) ∧ PlainAll stmts
  | .unary line _ e => line = 1 ∧ e.Plain
  | .arith line _ l r => line = 1 ∧ l.Plain ∧ r.Plain
  | .compare line _ l r => line = 1 ∧ l.Plain ∧ r.Plain
  | .call line callee args => line = 1 ∧ callee.Plain ∧ PlainArgs args
  | .index line base key => line = 1 ∧ base.Plain ∧ key.Plain
  | .table line entries => line = 1 ∧ PlainEntries entries

/-- All of the expressions are plain. -/
def PlainArgs : List Expr → Prop
  | [] => True
  | e :: es => e.Plain ∧ PlainArgs es

/-- All of the table entries are plain. -/
def PlainEntries : List (Expr × Expr) → Prop
  | [] => True
  | (k, v) :: es => k.Plain ∧ v.Plain ∧ PlainEntries es

/-- The statement stands on the first line and imports nothing, and what it is made of is plain. -/
def Stmt.Plain : Stmt → Prop
  | .assign line _ target value => line = 1 ∧ target.Plain ∧ value.Plain
  | .block (.mk brace stmts) => brace = 1 ∧ PlainAll stmts
  | .get _ _ _ => False
  | .cond line e (.mk brace yes) none => (line = 1 ∧ brace = 1) ∧ e.Plain ∧ PlainAll yes
  | .cond line e (.mk brace yes) (some (.mk brace' no)) =>
    (line = 1 ∧ brace = 1 ∧ brace' = 1) ∧ e.Plain ∧ PlainAll yes ∧ PlainAll no
  | .loop line e (.mk brace stmts) => (line = 1 ∧ brace = 1) ∧ e.Plain ∧ PlainAll stmts
  | .ret line e => line = 1 ∧ e.Plain
  | .expr line e => line = 1 ∧ e.Plain

/-- All of the statements are plain. -/
def PlainAll : List Stmt → Prop
  | [] => True
  | s :: ss => s.Plain ∧ PlainAll ss

end

theorem exists_identifiers : ∀ {params : List String}, (∀ x ∈ params, IsIdentifier x) →
    ∃ xs : List Identifier, xs.map Identifier.text = params
  | [], _ => ⟨[], rfl⟩
  | x :: params, h => by
    obtain ⟨hx, hparams⟩ := List.forall_mem_cons.1 h
    obtain ⟨xs, rfl⟩ := exists_identifiers hparams
    exact ⟨⟨x, hx⟩ :: xs, rfl⟩

mutual

theorem Expr.Plain.exists_sketch : ∀ {e : Expr}, e.Plain → ∃ d : Sketch.Expr, d.tree = e
  | .number _ _, ⟨rfl, digits, hdigits, rfl⟩ => ⟨.number ⟨digits, hdigits⟩, rfl⟩
  | .text _ s, ⟨rfl, hs⟩ => ⟨.text ⟨s, hs⟩, rfl⟩
  | .bool _ b, rfl => ⟨.bool b, rfl⟩
  | .var _ x, ⟨rfl, hx⟩ => ⟨.var ⟨x, hx⟩, rfl⟩
  | .function _ (.mk _ _ _ _ (.mk _ _)), ⟨⟨rfl, rfl, rfl, rfl, rfl⟩, hparams, hbody⟩ => by
    obtain ⟨xs, rfl⟩ := exists_identifiers hparams
    obtain ⟨body, rfl⟩ := exists_sketch_all hbody
    exact ⟨.function xs body, rfl⟩
  | .unary _ op _, ⟨rfl, he⟩ => by
    obtain ⟨d, rfl⟩ := he.exists_sketch
    exact ⟨.unary op d, rfl⟩
  | .arith _ op _ _, ⟨rfl, hl, hr⟩ => by
    obtain ⟨l, rfl⟩ := hl.exists_sketch
    obtain ⟨r, rfl⟩ := hr.exists_sketch
    exact ⟨.arith op l r, rfl⟩
  | .compare _ op _ _, ⟨rfl, hl, hr⟩ => by
    obtain ⟨l, rfl⟩ := hl.exists_sketch
    obtain ⟨r, rfl⟩ := hr.exists_sketch
    exact ⟨.compare op l r, rfl⟩
  | .call _ _ _, ⟨rfl, hcallee, hargs⟩ => by
    obtain ⟨callee, rfl⟩ := hcallee.exists_sketch
    obtain ⟨args, rfl⟩ := exists_sketch_args hargs
    exact ⟨.call callee args, rfl⟩
  | .index _ _ _, ⟨rfl, hbase, hkey⟩ => by
    obtain ⟨base, rfl⟩ := hbase.exists_sketch
    obtain ⟨key, rfl⟩ := hkey.exists_sketch
    exact ⟨.index base key, rfl⟩
  | .table _ _, ⟨rfl, hentries⟩ => by
    obtain ⟨entries, rfl⟩ := exists_sketch_entries hentries
    exact ⟨.table entries, rfl⟩

theorem exists_sketch_args : ∀ {es : List Expr}, PlainArgs es → ∃ ds, Sketch.treeArgs ds = es
  | [], _ => ⟨[], rfl⟩
  | _ :: _, ⟨he, hes⟩ => by
    obtain ⟨d, rfl⟩ := he.exists_sketch
    obtain ⟨ds, rfl⟩ := exists_sketch_args hes
    exact ⟨d :: ds, rfl⟩

theorem exists_sketch_entries : ∀ {es : List (Expr × Expr)}, PlainEntries es →
    ∃ ds, Sketch.treeEntries ds = es
  | [], _ => ⟨[], rfl⟩
  | (_, _) :: _, ⟨hk, hv, hes⟩ => by
    obtain ⟨k, rfl⟩ := hk.exists_sketch
    obtain ⟨v, rfl⟩ := hv.exists_sketch
    obtain ⟨ds, rfl⟩ := exists_sketch_entries hes
    exact ⟨(k, v) :: ds, rfl⟩

theorem Stmt.Plain.exists_sketch : ∀ {s : Stmt}, s.Plain → ∃ d : Sketch.Stmt, d.tree = s
  | .assign _ how _ _, ⟨rfl, htarget, hvalue⟩ => by
    obtain ⟨target, rfl⟩ := htarget.exists_sketch
    obtain ⟨value, rfl⟩ := hvalue.exists_sketch
    exact ⟨.assign how target value, rfl⟩
  | .block (.mk _ _), ⟨rfl, hbody⟩ => by
    obtain ⟨body, rfl⟩ := exists_sketch_all hbody
    exact ⟨.block body, rfl⟩
  | .cond _ _ (.mk _ _) none, ⟨⟨rfl, rfl⟩, he, hyes⟩ => by
    obtain ⟨e, rfl⟩ := he.exists_sketch
    obtain ⟨yes, rfl⟩ := exists_sketch_all hyes
    exact ⟨.cond e yes none, rfl⟩
  | .cond _ _ (.mk _ _) (some (.mk _ _)), ⟨⟨rfl, rfl, rfl⟩, he, hyes, hno⟩ => by
    obtain ⟨e, rfl⟩ := he.exists_sketch
    obtain ⟨yes, rfl⟩ := exists_sketch_all hyes
    obtain ⟨no, rfl⟩ := exists_sketch_all hno
    exact ⟨.cond e yes (some no), rfl⟩
  | .loop _ _ (.mk _ _), ⟨⟨rfl, rfl⟩, he, hbody⟩ => by
    obtain ⟨e, rfl⟩ := he.exists_sketch
    obtain ⟨body, rfl⟩ := exists_sketch_all hbody
    exact ⟨.loop e body, rfl⟩
  | .ret _ _, ⟨rfl, he⟩ => by
    obtain ⟨e, rfl⟩ := he.exists_sketch
    exact ⟨.ret e, rfl⟩
  | .expr _ _, ⟨rfl, he⟩ => by
    obtain ⟨e, rfl⟩ := he.exists_sketch
    exact ⟨.expr e, rfl⟩

/-- A plain program has a sketch. -/
theorem exists_sketch_all : ∀ {ss : List Stmt}, PlainAll ss → ∃ ds, Sketch.treeAll ds = ss
  | [], _ => ⟨[], rfl⟩
  | _ :: _, ⟨hs, hss⟩ => by
    obtain ⟨d, rfl⟩ := hs.exists_sketch
    obtain ⟨ds, rfl⟩ := exists_sketch_all hss
    exact ⟨d :: ds, rfl⟩

end

namespace Sketch

/-! ### How a sketch is written -/

/-- Something between two marks. -/
def enclosed (opening closing : Symbol) (ls : List Lexeme) : List Lexeme :=
  .symbol opening :: (ls ++ [.symbol closing])

/-- In parentheses. -/
def inParens (ls : List Lexeme) : List Lexeme := enclosed .leftParen .rightParen ls

/-- In braces. -/
def inBraces (ls : List Lexeme) : List Lexeme := enclosed .leftBrace .rightBrace ls

/-- In brackets. -/
def inBrackets (ls : List Lexeme) : List Lexeme := enclosed .leftBracket .rightBracket ls

/-- A list with commas between its items. -/
def separated (items : List (List Lexeme)) : List Lexeme := [Lexeme.symbol .comma].intercalate items

mutual

/-- The lexemes of an expression, in parentheses unless it is just one lexeme. -/
def Expr.lexemes : Expr → List Lexeme
  | .number x => [.number x]
  | .text s => [.text s]
  | .bool b => [.bool b]
  | .var x => [.name x]
  | .function params body =>
    inParens (.keyword .functionWord :: (inParens (separated (params.map fun x => [.name x])) ++
      inBraces (lexemesAll body)))
  | .unary op e => inParens (.symbol op.mark :: e.lexemes)
  | .arith op l r => inParens (l.lexemes ++ .symbol op.mark :: r.lexemes)
  | .compare op l r => inParens (l.lexemes ++ .symbol op.mark :: r.lexemes)
  | .call callee args => inParens (callee.lexemes ++ inParens (separated (lexemesArgs args)))
  | .index base key => inParens (base.lexemes ++ inBrackets key.lexemes)
  | .table entries => inParens (inBrackets (separated (lexemesEntries entries)))

/-- The lexemes of each of some expressions. -/
def lexemesArgs : List Expr → List (List Lexeme)
  | [] => []
  | e :: es => e.lexemes :: lexemesArgs es

/-- The lexemes of each of some table entries. -/
def lexemesEntries : List (Expr × Expr) → List (List Lexeme)
  | [] => []
  | (k, v) :: es => (k.lexemes ++ .symbol .colon :: v.lexemes) :: lexemesEntries es

/-- The lexemes of a statement. -/
def Stmt.lexemes : Stmt → List Lexeme
  | .assign how target value => target.lexemes ++ .symbol how.mark :: value.lexemes
  | .block body => inBraces (lexemesAll body)
  | .cond e yes none => .keyword .ifWord :: (inParens e.lexemes ++ inBraces (lexemesAll yes))
  | .cond e yes (some no) =>
    .keyword .ifWord :: (inParens e.lexemes ++ (inBraces (lexemesAll yes) ++
      .keyword .elseWord :: inBraces (lexemesAll no)))
  | .loop e body => .keyword .loopWord :: (inParens e.lexemes ++ inBraces (lexemesAll body))
  | .ret e => .keyword .returnWord :: e.lexemes
  | .expr e => e.lexemes

/-- The lexemes of statements, each with its semicolon. -/
def lexemesAll : List Stmt → List Lexeme
  | [] => []
  | s :: ss => s.lexemes ++ .symbol .semicolon :: lexemesAll ss

end

/-- The text of a program, on one line and with a space between lexemes. -/
def render (p : List Stmt) : String := " ".intercalate ((lexemesAll p).map Lexeme.spelling)

/-! ### How deep the text is nested -/

mutual

/-- The levels that the text of an expression takes as an operand. -/
def Expr.nesting : Expr → Nat
  | .number _ | .text _ | .bool _ | .var _ => 0
  | .function _ body => nestingAll body + 1 + 1
  | .unary _ e => e.nesting + 1
  | .arith _ l r => max l.nesting r.nesting + 1
  | .compare _ l r => max l.nesting r.nesting + 1
  | .call callee args => max callee.nesting (nestingArgs args) + 1
  | .index base key => max base.nesting (key.nesting + 1) + 1
  | .table entries => nestingEntries entries + 1

/-- The levels that the texts of arguments take. -/
def nestingArgs : List Expr → Nat
  | [] => 0
  | e :: es => max (e.nesting + 1) (nestingArgs es)

/-- The levels that the texts of table entries take. -/
def nestingEntries : List (Expr × Expr) → Nat
  | [] => 0
  | (k, v) :: es => max (max (k.nesting + 1) (v.nesting + 1)) (nestingEntries es)

/-- The levels that the text of a statement takes. -/
def Stmt.nesting : Stmt → Nat
  | .assign _ target value => max (target.nesting + 1) (value.nesting + 1)
  | .block body => nestingAll body + 1
  | .cond e yes none => max (e.nesting + 1) (nestingAll yes + 1)
  | .cond e yes (some no) => max (e.nesting + 1) (max (nestingAll yes + 1) (nestingAll no + 1))
  | .loop e body => max (e.nesting + 1) (nestingAll body + 1)
  | .ret e => e.nesting + 1
  | .expr e => e.nesting + 1

/-- The levels that the texts of statements take. -/
def nestingAll : List Stmt → Nat
  | [] => 0
  | s :: ss => max s.nesting (nestingAll ss)

end

end Sketch

end TableScript
