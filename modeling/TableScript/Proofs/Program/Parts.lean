import Mathlib.Data.List.Forall2
import Mathlib.Data.Option.Basic
import TableScript.Proofs.Program.Nodes
import TableScript.Proofs.Program.Relabeling

/-!
# The parts of a node

What is done with an expression or a statement is said by a rule for its node and by what is done with its
parts.  The parts of an expression are expressions; those of a statement are expressions and lists of
statements, and an imported program.  They are smaller (`Expr.sizeOf_lt_of_mem_parts`), and their nodes are
nodes of the whole (`Expr.mem_nodes_of_mem_parts`).  The body of a function literal is no part: it is code of
the value, and is run where that is called.

`Expr.SameNode L F E` and `Stmt.SameNode L E B I` relate code that is the same at its node.  The lines of
the two nodes are related by `L`, which may depend on what the node is, the functions of literals by `F`, and
the parts by `E`, `B` and `I`.  Code with other positions is the same at every node
(`Expr.sameNode_relabel`, `Stmt.sameNode_relabel`), and so is code itself.
-/

namespace TableScript

/-! ### Parts -/

/-- The expressions in an expression. -/
def Expr.parts : Expr → List Expr
  | .unary _ _ e => [e]
  | .arith _ _ l r => [l, r]
  | .compare _ _ l r => [l, r]
  | .call _ callee args => callee :: args
  | .index _ base key => [base, key]
  | .table _ entries => entries.flatMap fun entry => [entry.1, entry.2]
  | _ => []

/-- The expressions in what is assigned to.  A name is not evaluated, and neither is what cannot be assigned
to. -/
def Expr.targetParts : Expr → List Expr
  | .index _ base key => [base, key]
  | _ => []

/-- The expressions in a statement. -/
def Stmt.exprs : Stmt → List Expr
  | .assign _ _ target value => value :: target.targetParts
  | .cond _ e _ _ => [e]
  | .loop _ e _ => [e]
  | .ret _ e => [e]
  | .expr _ e => [e]
  | _ => []

/-- The lists of statements in a statement, apart from a program that it imports. -/
def Stmt.blocks : Stmt → List (List Stmt)
  | .block body => [body.stmts]
  | .cond _ _ yes none => [yes.stmts]
  | .cond _ _ yes (some no) => [yes.stmts, no.stmts]
  | .loop _ _ body => [body.stmts]
  | _ => []

section Size

theorem Expr.sizeOf_pos (e : Expr) : 0 < sizeOf e := Nat.pos_of_ne_zero (by cases e <;> simp)

theorem Stmt.sizeOf_pos (s : Stmt) : 0 < sizeOf s := Nat.pos_of_ne_zero (by cases s <;> simp)

theorem Expr.sizeOf_lt_of_mem_parts {e c : Expr} (h : c ∈ e.parts) : sizeOf c < sizeOf e := by
  cases e with
  | number | text | bool | var | function => cases h
  | unary line op e =>
    obtain rfl := List.mem_singleton.1 h
    simp only [Expr.unary.sizeOf_spec]
    omega
  | arith line op l r =>
    simp only [parts, List.mem_cons, List.not_mem_nil, or_false] at h
    simp only [Expr.arith.sizeOf_spec]
    rcases h with rfl | rfl <;> omega
  | compare line op l r =>
    simp only [parts, List.mem_cons, List.not_mem_nil, or_false] at h
    simp only [Expr.compare.sizeOf_spec]
    rcases h with rfl | rfl <;> omega
  | call line callee args =>
    simp only [Expr.call.sizeOf_spec]
    rcases List.mem_cons.1 h with rfl | h
    · omega
    · have hlt := List.sizeOf_lt_of_mem h
      omega
  | index line base key =>
    simp only [parts, List.mem_cons, List.not_mem_nil, or_false] at h
    simp only [Expr.index.sizeOf_spec]
    rcases h with rfl | rfl <;> omega
  | table line entries =>
    obtain ⟨⟨k, v⟩, hentry, h⟩ := List.mem_flatMap.1 h
    have hlt : 1 + sizeOf k + sizeOf v < sizeOf entries := List.sizeOf_lt_of_mem hentry
    simp only [List.mem_cons, List.not_mem_nil, or_false] at h
    simp only [Expr.table.sizeOf_spec]
    rcases h with rfl | rfl <;> omega

theorem Expr.sizeOf_lt_of_mem_targetParts {e c : Expr} (h : c ∈ e.targetParts) :
    sizeOf c < sizeOf e := by
  cases e with
  | index line base key => exact sizeOf_lt_of_mem_parts (e := .index line base key) h
  | _ => cases h

theorem Stmt.sizeOf_lt_of_mem_exprs {s : Stmt} {c : Expr} (h : c ∈ s.exprs) : sizeOf c < sizeOf s := by
  cases s with
  | assign line how target value =>
    simp only [Stmt.assign.sizeOf_spec]
    rcases List.mem_cons.1 h with rfl | h
    · omega
    · have hlt := Expr.sizeOf_lt_of_mem_targetParts h
      omega
  | block | get => cases h
  | cond line e yes no =>
    obtain rfl := List.mem_singleton.1 h
    simp only [Stmt.cond.sizeOf_spec]
    omega
  | loop line e body =>
    obtain rfl := List.mem_singleton.1 h
    simp only [Stmt.loop.sizeOf_spec]
    omega
  | ret line e =>
    obtain rfl := List.mem_singleton.1 h
    simp only [Stmt.ret.sizeOf_spec]
    omega
  | expr line e =>
    obtain rfl := List.mem_singleton.1 h
    simp only [Stmt.expr.sizeOf_spec]
    omega

theorem Block.sizeOf_stmts_lt (body : Block) : sizeOf body.stmts < sizeOf body := by
  obtain ⟨line, stmts⟩ := body
  simp only [Block.stmts, Block.mk.sizeOf_spec]
  omega

theorem Routine.sizeOf_stmts_lt (f : Routine) : sizeOf f.body.stmts < sizeOf f := by
  obtain ⟨tag, line, file, params, body⟩ := f
  have hlt := body.sizeOf_stmts_lt
  simp only [Routine.body, Routine.mk.sizeOf_spec]
  omega

theorem Stmt.sizeOf_lt_of_mem_blocks {s : Stmt} {ss : List Stmt} (h : ss ∈ s.blocks) :
    sizeOf ss < sizeOf s := by
  cases s with
  | assign | get | ret | expr => cases h
  | block body =>
    obtain rfl := List.mem_singleton.1 h
    have hlt := body.sizeOf_stmts_lt
    simp only [Stmt.block.sizeOf_spec]
    omega
  | cond line e yes no =>
    have hyes := yes.sizeOf_stmts_lt
    cases no with
    | none =>
      obtain rfl := List.mem_singleton.1 h
      simp only [Stmt.cond.sizeOf_spec]
      omega
    | some no =>
      have hno := no.sizeOf_stmts_lt
      simp only [blocks, List.mem_cons, List.not_mem_nil, or_false] at h
      simp only [Stmt.cond.sizeOf_spec, Option.some.sizeOf_spec]
      rcases h with rfl | rfl <;> omega
  | loop line e body =>
    obtain rfl := List.mem_singleton.1 h
    have hlt := body.sizeOf_stmts_lt
    simp only [Stmt.loop.sizeOf_spec]
    omega

end Size

section Nodes

variable {place : Place} {n : Node}

theorem Expr.mem_nodes_of_mem_parts {e c : Expr} (h : c ∈ e.parts) (hn : n ∈ c.nodes place) :
    n ∈ e.nodes place := by
  cases e with
  | number | text | bool | var | function => cases h
  | unary line op e =>
    obtain rfl := List.mem_singleton.1 h
    exact List.mem_cons_of_mem _ hn
  | arith line op l r | compare line op l r | index line l r =>
    simp only [parts, List.mem_cons, List.not_mem_nil, or_false] at h
    rw [Expr.nodes, List.mem_cons, List.mem_append]
    rcases h with rfl | rfl
    · exact .inr (.inl hn)
    · exact .inr (.inr hn)
  | call line callee args =>
    rw [Expr.nodes, List.mem_cons, List.mem_append]
    rcases List.mem_cons.1 h with rfl | h
    · exact .inr (.inl hn)
    · exact .inr (.inr (mem_nodesArgs.2 ⟨c, h, hn⟩))
  | table line entries =>
    obtain ⟨entry, hentry, h⟩ := List.mem_flatMap.1 h
    simp only [List.mem_cons, List.not_mem_nil, or_false] at h
    rw [Expr.nodes, List.mem_cons, mem_nodesEntries]
    rcases h with rfl | rfl
    · exact .inr ⟨entry, hentry, .inl hn⟩
    · exact .inr ⟨entry, hentry, .inr hn⟩

theorem Stmt.mem_nodes_of_mem_exprs {s : Stmt} {c : Expr} (h : c ∈ s.exprs)
    (hn : n ∈ c.nodes place) : n ∈ s.nodes place := by
  cases s with
  | assign line how target value =>
    rw [Stmt.nodes, List.mem_cons, List.mem_append]
    rcases List.mem_cons.1 h with rfl | h
    · exact .inr (.inr hn)
    · cases target with
      | index line base key =>
        exact .inr (.inl (Expr.mem_nodes_of_mem_parts (e := .index line base key) h hn))
      | _ => cases h
  | block | get => cases h
  | cond line e yes no =>
    obtain rfl := List.mem_singleton.1 h
    obtain ⟨start, yes⟩ := yes
    cases no with
    | none => exact List.mem_cons_of_mem _ (List.mem_append_left _ hn)
    | some no =>
      obtain ⟨start', no⟩ := no
      exact List.mem_cons_of_mem _ (List.mem_append_left _ (List.mem_append_left _ hn))
  | loop line e body =>
    obtain rfl := List.mem_singleton.1 h
    obtain ⟨start, stmts⟩ := body
    exact List.mem_cons_of_mem _ (List.mem_append_left _ hn)
  | ret line e | expr line e =>
    obtain rfl := List.mem_singleton.1 h
    exact List.mem_cons_of_mem _ hn

theorem Stmt.mem_nodes_of_mem_blocks {s : Stmt} {ss : List Stmt} (h : ss ∈ s.blocks)
    (hn : n ∈ nodesAll place ss) : n ∈ s.nodes place := by
  cases s with
  | assign | get | ret | expr => cases h
  | block body =>
    obtain ⟨line, stmts⟩ := body
    obtain rfl := List.mem_singleton.1 h
    exact List.mem_cons_of_mem _ hn
  | cond line e yes no =>
    obtain ⟨start, yes⟩ := yes
    cases no with
    | none =>
      obtain rfl := List.mem_singleton.1 h
      exact List.mem_cons_of_mem _ (List.mem_append_right _ hn)
    | some no =>
      obtain ⟨start', no⟩ := no
      simp only [blocks, List.mem_cons, List.not_mem_nil, or_false] at h
      rw [Stmt.nodes, List.mem_cons, List.mem_append, List.mem_append]
      rcases h with rfl | rfl
      · exact .inr (.inl (.inr hn))
      · exact .inr (.inr hn)
  | loop line e body =>
    obtain ⟨start, stmts⟩ := body
    obtain rfl := List.mem_singleton.1 h
    exact List.mem_cons_of_mem _ (List.mem_append_right _ hn)

end Nodes

/-! ### Code that is the same at its node -/

/-- The same expression at its node. -/
inductive Expr.SameNode (L : Form → Nat → Nat → Prop) (F : Routine → Routine → Prop)
    (E : Expr → Expr → Prop) : Expr → Expr → Prop
  | number (line line' : Nat) (x : Float) : SameNode L F E (.number line x) (.number line' x)
  | text (line line' : Nat) (s : String) : SameNode L F E (.text line s) (.text line' s)
  | bool (line line' : Nat) (b : Bool) : SameNode L F E (.bool line b) (.bool line' b)
  | var {line line' : Nat} (name : String) : L .other line line' →
      SameNode L F E (.var line name) (.var line' name)
  | function (line line' : Nat) {f f' : Routine} : F f f' →
      SameNode L F E (.function line f) (.function line' f')
  | unary {line line' : Nat} (op : Sign) {e e' : Expr} : L .other line line' → E e e' →
      SameNode L F E (.unary line op e) (.unary line' op e')
  | arith {line line' : Nat} (op : ArithOp) {l l' r r' : Expr} : L .other line line' → E l l' → E r r' →
      SameNode L F E (.arith line op l r) (.arith line' op l' r')
  | compare {line line' : Nat} (op : CompareOp) {l l' r r' : Expr} : L .other line line' → E l l' →
      E r r' → SameNode L F E (.compare line op l r) (.compare line' op l' r')
  | call {line line' : Nat} {callee callee' : Expr} {args args' : List Expr} : L .call line line' →
      E callee callee' → List.Forall₂ E args args' →
      SameNode L F E (.call line callee args) (.call line' callee' args')
  | index {line line' : Nat} {base base' key key' : Expr} : L .other line line' → E base base' →
      E key key' → SameNode L F E (.index line base key) (.index line' base' key')
  | table {line line' : Nat} {entries entries' : List (Expr × Expr)} : L .other line line' →
      List.Forall₂ (fun x y => E x.1 y.1 ∧ E x.2 y.2) entries entries' →
      SameNode L F E (.table line entries) (.table line' entries')

/-- A name or a place in a table.  Nothing else can be assigned to. -/
def Expr.IsTarget : Expr → Prop
  | .var _ _ | .index _ _ _ => True
  | _ => False

/-- The same name, the same place in a table, or no such thing on either side. -/
inductive Expr.SameTarget (L : Form → Nat → Nat → Prop) (E : Expr → Expr → Prop) : Expr → Expr → Prop
  | var (line line' : Nat) (name : String) : SameTarget L E (.var line name) (.var line' name)
  | index {line line' : Nat} {base base' key key' : Expr} : L .other line line' → E base base' →
      E key key' → SameTarget L E (.index line base key) (.index line' base' key')
  | invalid {target target' : Expr} : ¬ target.IsTarget → ¬ target'.IsTarget →
      SameTarget L E target target'

/-- The same statement at its node. -/
inductive Stmt.SameNode (L : Form → Nat → Nat → Prop) (E : Expr → Expr → Prop)
    (B : List Stmt → List Stmt → Prop) (I : String → Program → String → Program → Prop) :
    Stmt → Stmt → Prop
  | assign {line line' : Nat} {how : Assignment} {target target' value value' : Expr} :
      L (.ofAssign how target) line line' → Expr.SameTarget L E target target' → E value value' →
      SameNode L E B I (.assign line how target value) (.assign line' how target' value')
  | block {body body' : Block} : B body.stmts body'.stmts → SameNode L E B I (.block body) (.block body')
  | get (line line' : Nat) {name name' : String} {p p' : Program} : I name p name' p' →
      SameNode L E B I (.get line name p) (.get line' name' p')
  | cond {line line' : Nat} {e e' : Expr} {yes yes' : Block} {no no' : Option Block} :
      L .other line line' → E e e' → B yes.stmts yes'.stmts →
      Option.Rel (fun b b' => B b.stmts b'.stmts) no no' →
      SameNode L E B I (.cond line e yes no) (.cond line' e' yes' no')
  | loop {line line' : Nat} {e e' : Expr} {body body' : Block} : L .loop line line' → E e e' →
      B body.stmts body'.stmts → SameNode L E B I (.loop line e body) (.loop line' e' body')
  | ret {line line' : Nat} {e e' : Expr} : L .other line line' → E e e' →
      SameNode L E B I (.ret line e) (.ret line' e')
  | expr (line line' : Nat) {e e' : Expr} : E e e' → SameNode L E B I (.expr line e) (.expr line' e')

/-! ### Code with other positions -/

section Relabel

variable {π : Type} {L : Form → Nat → Nat → Prop} {F : Routine → Routine → Prop}
variable {E : Expr → Expr → Prop} {B : List Stmt → List Stmt → Prop}
variable {I : String → Program → String → Program → Prop} (g : Relabeling π) (p : π) (place : Place)

/-- An expression with other positions is the same at its node, if that can be said of its line, of the
function if it is one, and of its parts. -/
theorem Expr.sameNode_relabel (e : Expr)
    (hL : ∀ {line form}, ⟨place, line, form⟩ ∈ e.nodes place → L form line (g.line p line))
    (hF : ∀ line f, e = .function line f → F f (f.relabel g p))
    (hE : ∀ c ∈ e.parts, E c (c.relabel g p)) : e.SameNode L F E (e.relabel g p) := by
  cases e with
  | number line x => exact .number _ _ x
  | text line s => exact .text _ _ s
  | bool line b => exact .bool _ _ b
  | var line name => exact .var name (hL List.mem_cons_self)
  | function line f => exact .function _ _ (hF line f rfl)
  | unary line op e => exact .unary op (hL List.mem_cons_self) (hE e (by simp [parts]))
  | arith line op l r =>
    exact .arith op (hL List.mem_cons_self) (hE l (by simp [parts])) (hE r (by simp [parts]))
  | compare line op l r =>
    exact .compare op (hL List.mem_cons_self) (hE l (by simp [parts])) (hE r (by simp [parts]))
  | call line callee args =>
    obtain ⟨hcallee, hargs⟩ := List.forall_mem_cons.1 hE
    refine .call (hL List.mem_cons_self) hcallee ?_
    rw [relabelArgs_eq]
    exact List.forall₂_map_right_iff.2 (List.forall₂_same.2 hargs)
  | index line base key =>
    exact .index (hL List.mem_cons_self) (hE base (by simp [parts])) (hE key (by simp [parts]))
  | table line entries =>
    refine .table (hL List.mem_cons_self) ?_
    rw [relabelEntries_eq]
    refine List.forall₂_map_right_iff.2 (List.forall₂_same.2 fun entry hentry => ⟨?_, ?_⟩)
    · exact hE entry.1 (List.mem_flatMap.2 ⟨entry, hentry, by simp⟩)
    · exact hE entry.2 (List.mem_flatMap.2 ⟨entry, hentry, by simp⟩)

theorem Expr.sameTarget_relabel (target : Expr)
    (hL : ∀ {line form}, ⟨place, line, form⟩ ∈ target.nodes place → L form line (g.line p line))
    (hE : ∀ c ∈ target.targetParts, E c (c.relabel g p)) : target.SameTarget L E (target.relabel g p) := by
  cases target with
  | var line name => exact .var _ _ name
  | index line base key =>
    refine .index (hL List.mem_cons_self) (hE base ?_) (hE key ?_) <;> simp [targetParts]
  | _ => exact .invalid id id

/-- A statement with other positions is the same at its node, if that can be said of its line and of its
parts. -/
theorem Stmt.sameNode_relabel (s : Stmt)
    (hL : ∀ {line form}, ⟨place, line, form⟩ ∈ s.nodes place → L form line (g.line p line))
    (hE : ∀ c ∈ s.exprs, E c (c.relabel g p)) (hB : ∀ ss ∈ s.blocks, B ss (relabelAll g p ss))
    (hI : ∀ line name program, s = .get line name program →
      I name program (g.name p name) (relabelAll g (g.imported p name) program)) :
    s.SameNode L E B I (s.relabel g p) := by
  have hbody (body : Block) (h : body.stmts ∈ s.blocks) : B body.stmts (body.relabel g p).stmts := by
    obtain ⟨line, stmts⟩ := body
    exact hB stmts h
  cases s with
  | assign line how target value =>
    obtain ⟨hvalue, htarget⟩ := List.forall_mem_cons.1 hE
    refine .assign (hL List.mem_cons_self) (target.sameTarget_relabel g p place (fun h => ?_) htarget) hvalue
    exact hL (List.mem_cons_of_mem _ (List.mem_append_left _ h))
  | block body => exact .block (hbody body (by simp [blocks]))
  | get line name program => exact .get _ _ (hI line name program rfl)
  | cond line e yes no =>
    have hline : L .other line (g.line p line) := by
      apply hL
      obtain ⟨start, yes⟩ := yes
      rcases no with - | ⟨start', no⟩ <;> exact List.mem_cons_self
    cases no with
    | none => exact .cond hline (hE e (by simp [exprs])) (hbody yes (by simp [blocks])) .none
    | some no =>
      refine .cond hline (hE e (by simp [exprs])) (hbody yes (by simp [blocks])) (.some ?_)
      exact hbody no (by simp [blocks])
  | loop line e body =>
    have hline : L .loop line (g.line p line) := by
      apply hL
      obtain ⟨start, stmts⟩ := body
      exact List.mem_cons_self
    exact .loop hline (hE e (by simp [exprs])) (hbody body (by simp [blocks]))
  | ret line e => exact .ret (hL List.mem_cons_self) (hE e (by simp [exprs]))
  | expr line e => exact .expr _ _ (hE e (by simp [exprs]))

end Relabel

/-! ### Code itself -/

section Self

variable {L : Form → Nat → Nat → Prop} {F : Routine → Routine → Prop} {E : Expr → Expr → Prop}
variable {B : List Stmt → List Stmt → Prop} {I : String → Program → String → Program → Prop} (place : Place)

theorem Expr.sameNode_self (e : Expr)
    (hL : ∀ {line form}, ⟨place, line, form⟩ ∈ e.nodes place → L form line line)
    (hF : ∀ line f, e = .function line f → F f f) (hE : ∀ c ∈ e.parts, E c c) : e.SameNode L F E e := by
  have h : e.SameNode L F E (e.relabel .id ()) := by
    refine e.sameNode_relabel .id () place hL (fun line f he => ?_) fun c hc => ?_
    · rw [f.relabel_id]
      exact hF line f he
    · rw [c.relabel_id]
      exact hE c hc
  rwa [e.relabel_id] at h

theorem Stmt.sameNode_self (s : Stmt)
    (hL : ∀ {line form}, ⟨place, line, form⟩ ∈ s.nodes place → L form line line)
    (hE : ∀ c ∈ s.exprs, E c c) (hB : ∀ ss ∈ s.blocks, B ss ss)
    (hI : ∀ line name program, s = .get line name program → I name program name program) :
    s.SameNode L E B I s := by
  have h : s.SameNode L E B I (s.relabel .id ()) := by
    refine s.sameNode_relabel .id () place hL (fun c hc => ?_) (fun ss hss => ?_) fun line name q hq => ?_
    · rw [c.relabel_id]
      exact hE c hc
    · rw [relabelAll_id]
      exact hB ss hss
    · show I name q name (relabelAll .id () q)
      rw [relabelAll_id]
      exact hI line name q hq
  rwa [s.relabel_id] at h

end Self

end TableScript
