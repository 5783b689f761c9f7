import TableScript.Program.Label

/-!
# The nodes of a program

Every expression and every statement of a program is a node.  It has a line and a place.  The place says
which file the code belongs to: the file that the innermost function literal around it notes, or that
the innermost import around it names, whichever is further in.  It also says which of the two it was.
`nodesAll place p` lists the nodes of a program whose own text stands at `place`, those of function
bodies and of imported programs included.

What a run can meet is said in terms of this list: a program without loops is one in which no node is
a loop (`Program.LoopFree`), and code that writes only in its own frame is code in which no node is an
assignment of one of two forms (`Form.reassign`, `Form.store`).  Numbering the function literals does not
change the list (`nodesAll_label`).
-/

namespace TableScript

/-- What is said about a node besides its place. -/
inductive Form where
  /-- A function literal, with the file that it notes. -/
  | function (noted : Option String)
  | call
  | loop
  /-- An assignment that overwrites a name outside of the current frame. -/
  | reassign (name : String)
  /-- An assignment to a place in a table. -/
  | store
  | other
deriving Repr, DecidableEq

/-- What is said about an assignment. -/
def Form.ofAssign : Assignment → Expr → Form
  | _, .index _ _ _ => .store
  | .reassign, .var _ name => .reassign name
  | _, _ => .other

theorem Form.ofAssign_ne_function (how : Assignment) (target : Expr) (noted : Option String) :
    ofAssign how target ≠ .function noted := by
  cases how <;> cases target <;> exact nofun

/-- Where code stands. -/
structure Place where
  /-- The file that it belongs to, if any. -/
  file : Option String
  /-- Whether it is in the body of a function of that file. -/
  inFunction : Bool := false
deriving Repr, DecidableEq

/-- An expression or a statement of a program, by where it stands. -/
structure Node where
  place : Place
  line : Nat
  form : Form := .other
deriving Repr, DecidableEq

mutual

/-- The nodes of an expression that stands at a place. -/
def Expr.nodes : Place → Expr → List Node
  | place, .number line _ => [{ place, line }]
  | place, .text line _ => [{ place, line }]
  | place, .bool line _ => [{ place, line }]
  | place, .var line _ => [{ place, line }]
  | place, .function line (.mk _ _ noted _ (.mk _ stmts)) =>
    { place, line, form := .function noted } :: nodesAll ⟨noted, true⟩ stmts
  | place, .unary line _ e => { place, line } :: e.nodes place
  | place, .arith line _ l r => { place, line } :: (l.nodes place ++ r.nodes place)
  | place, .compare line _ l r => { place, line } :: (l.nodes place ++ r.nodes place)
  | place, .call line callee args =>
    { place, line, form := .call } :: (callee.nodes place ++ nodesArgs place args)
  | place, .index line base key => { place, line } :: (base.nodes place ++ key.nodes place)
  | place, .table line entries => { place, line } :: nodesEntries place entries

/-- The nodes of expressions. -/
def nodesArgs : Place → List Expr → List Node
  | _, [] => []
  | place, e :: es => e.nodes place ++ nodesArgs place es

/-- The nodes of table entries. -/
def nodesEntries : Place → List (Expr × Expr) → List Node
  | _, [] => []
  | place, (k, v) :: es => k.nodes place ++ v.nodes place ++ nodesEntries place es

/-- The nodes of a statement that stands at a place. -/
def Stmt.nodes : Place → Stmt → List Node
  | place, .assign line how target value =>
    { place, line, form := .ofAssign how target } :: (target.nodes place ++ value.nodes place)
  | place, .block (.mk line stmts) => { place, line } :: nodesAll place stmts
  | place, .get line name program => { place, line } :: nodesAll ⟨some name, false⟩ program
  | place, .cond line e (.mk _ yes) none => { place, line } :: (e.nodes place ++ nodesAll place yes)
  | place, .cond line e (.mk _ yes) (some (.mk _ no)) =>
    { place, line } :: (e.nodes place ++ nodesAll place yes ++ nodesAll place no)
  | place, .loop line e (.mk _ stmts) =>
    { place, line, form := .loop } :: (e.nodes place ++ nodesAll place stmts)
  | place, .ret line e => { place, line } :: e.nodes place
  | place, .expr line e => { place, line } :: e.nodes place

/-- The nodes of statements. -/
def nodesAll : Place → List Stmt → List Node
  | _, [] => []
  | place, s :: ss => s.nodes place ++ nodesAll place ss

end

/-- The nodes in the body of a function. -/
def Routine.nodes (f : Routine) : List Node := nodesAll ⟨f.file, true⟩ f.body.stmts

/-- All the code of a function is in `S`. -/
def Routine.Within (S : Node → Prop) (f : Routine) : Prop := ∀ n ∈ f.nodes, S n

/-- No loop stands in the body of a function, in a function inside of it or in a program that it
imports. -/
def Routine.LoopFree (f : Routine) : Prop := ∀ n ∈ f.nodes, n.form ≠ .loop

/-- No loop stands anywhere in a program. -/
def Program.LoopFree (p : Program) : Prop := ∀ n ∈ nodesAll ⟨none, false⟩ p, n.form ≠ .loop

/-! ### Lists of nodes by their members -/

theorem mem_nodesArgs {place : Place} {es : List Expr} {n : Node} :
    n ∈ nodesArgs place es ↔ ∃ e ∈ es, n ∈ e.nodes place := by
  induction es with
  | nil => simp [nodesArgs]
  | cons e es ih => simp [nodesArgs, ih]

theorem mem_nodesEntries {place : Place} {es : List (Expr × Expr)} {n : Node} :
    n ∈ nodesEntries place es ↔ ∃ e ∈ es, n ∈ e.1.nodes place ∨ n ∈ e.2.nodes place := by
  induction es with
  | nil => simp [nodesEntries]
  | cons e es ih =>
    obtain ⟨k, v⟩ := e
    simp [nodesEntries, ih, or_assoc]

theorem mem_nodesAll {place : Place} {ss : List Stmt} {n : Node} :
    n ∈ nodesAll place ss ↔ ∃ s ∈ ss, n ∈ s.nodes place := by
  induction ss with
  | nil => simp [nodesAll]
  | cons s ss ih => simp [nodesAll, ih]

/-! ### Numbering keeps the nodes -/

theorem Form.ofAssign_label (how : Assignment) (target : Expr) (n : Nat) :
    ofAssign how (target.label n).1 = ofAssign how target := by
  cases target with
  | function line f =>
    obtain ⟨tag, start, noted, params, ⟨brace, stmts⟩⟩ := f
    cases how <;> rfl
  | _ => cases how <;> rfl

mutual

theorem Expr.nodes_label (place : Place) : ∀ (e : Expr) (n : Nat),
    (e.label n).1.nodes place = e.nodes place
  | .number _ _, _ | .text _ _, _ | .bool _ _, _ | .var _ _, _ => rfl
  | .function _ (.mk _ _ noted _ (.mk _ stmts)), n => by
    simp only [Expr.label, Expr.nodes, nodesAll_label ⟨noted, true⟩ stmts (n + 1)]
  | .unary _ _ e, n => by
    simp only [Expr.label, Expr.nodes, e.nodes_label place n]
  | .arith _ _ l r, n | .compare _ _ l r, n => by
    simp only [Expr.label, Expr.nodes, l.nodes_label place n, r.nodes_label place (l.label n).2]
  | .call _ callee args, n => by
    simp only [Expr.label, Expr.nodes, callee.nodes_label place n,
      nodesArgs_label place args (callee.label n).2]
  | .index _ base key, n => by
    simp only [Expr.label, Expr.nodes, base.nodes_label place n, key.nodes_label place (base.label n).2]
  | .table _ entries, n => by
    simp only [Expr.label, Expr.nodes, nodesEntries_label place entries n]

theorem nodesArgs_label (place : Place) : ∀ (es : List Expr) (n : Nat),
    nodesArgs place (labelArgs es n).1 = nodesArgs place es
  | [], _ => rfl
  | e :: es, n => by
    simp only [labelArgs, nodesArgs, e.nodes_label place n, nodesArgs_label place es (e.label n).2]

theorem nodesEntries_label (place : Place) : ∀ (es : List (Expr × Expr)) (n : Nat),
    nodesEntries place (labelEntries es n).1 = nodesEntries place es
  | [], _ => rfl
  | (k, v) :: es, n => by
    simp only [labelEntries, nodesEntries, k.nodes_label place n, v.nodes_label place (k.label n).2,
      nodesEntries_label place es (v.label (k.label n).2).2]

theorem Stmt.nodes_label (place : Place) : ∀ (s : Stmt) (n : Nat),
    (s.label n).1.nodes place = s.nodes place
  | .assign _ how target value, n => by
    simp only [Stmt.label, Stmt.nodes, Form.ofAssign_label how target n, target.nodes_label place n,
      value.nodes_label place (target.label n).2]
  | .block (.mk _ stmts), n => by
    simp only [Stmt.label, Stmt.nodes, nodesAll_label place stmts n]
  | .get _ name program, n => by
    simp only [Stmt.label, Stmt.nodes, nodesAll_label ⟨some name, false⟩ program n]
  | .cond _ e (.mk _ yes) none, n => by
    simp only [Stmt.label, Stmt.nodes, e.nodes_label place n, nodesAll_label place yes (e.label n).2]
  | .cond _ e (.mk _ yes) (some (.mk _ no)), n => by
    simp only [Stmt.label, Stmt.nodes, e.nodes_label place n, nodesAll_label place yes (e.label n).2,
      nodesAll_label place no (labelAll yes (e.label n).2).2]
  | .loop _ e (.mk _ stmts), n => by
    simp only [Stmt.label, Stmt.nodes, e.nodes_label place n, nodesAll_label place stmts (e.label n).2]
  | .ret _ e, n | .expr _ e, n => by
    simp only [Stmt.label, Stmt.nodes, e.nodes_label place n]

theorem nodesAll_label (place : Place) : ∀ (ss : List Stmt) (n : Nat),
    nodesAll place (labelAll ss n).1 = nodesAll place ss
  | [], _ => rfl
  | s :: ss, n => by
    simp only [labelAll, nodesAll, s.nodes_label place n, nodesAll_label place ss (s.label n).2]

end

end TableScript
