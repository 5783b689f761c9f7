import TableScript.Proofs.Program.Parts

/-!
# Programs without bare blocks and imports

A bare block and an import have no frame of their own, so their statements could as well stand in their
place.  `flattenAll` puts them there, everywhere in a program: at the top, in conditionals and loops, in
function bodies, and in the blocks and imports themselves.  What is flat stays as it is
(`flattenAll_flattenAll`), and all else is the same at its node as before (`Stmt.flatten_cases`).
-/

namespace TableScript

mutual

/-- The expression with its function bodies flattened. -/
def Expr.flatten : Expr → Expr
  | .number line x => .number line x
  | .text line s => .text line s
  | .bool line b => .bool line b
  | .var line name => .var line name
  | .function line (.mk tag start file params (.mk brace stmts)) =>
    .function line (.mk tag start file params (.mk brace (flattenAll stmts)))
  | .unary line op e => .unary line op e.flatten
  | .arith line op l r => .arith line op l.flatten r.flatten
  | .compare line op l r => .compare line op l.flatten r.flatten
  | .call line callee args => .call line callee.flatten (flattenArgs args)
  | .index line base key => .index line base.flatten key.flatten
  | .table line entries => .table line (flattenEntries entries)

/-- Each of the expressions flattened. -/
def flattenArgs : List Expr → List Expr
  | [] => []
  | e :: es => e.flatten :: flattenArgs es

/-- Each of the table entries flattened. -/
def flattenEntries : List (Expr × Expr) → List (Expr × Expr)
  | [] => []
  | (k, v) :: es => (k.flatten, v.flatten) :: flattenEntries es

/-- What stands in the place of a statement. -/
def Stmt.flatten : Stmt → List Stmt
  | .block (.mk _ stmts) => flattenAll stmts
  | .get _ _ program => flattenAll program
  | .assign line how target value => [.assign line how target.flatten value.flatten]
  | .cond line e (.mk start yes) none => [.cond line e.flatten (.mk start (flattenAll yes)) none]
  | .cond line e (.mk start yes) (some (.mk start' no)) =>
    [.cond line e.flatten (.mk start (flattenAll yes)) (some (.mk start' (flattenAll no)))]
  | .loop line e (.mk start stmts) => [.loop line e.flatten (.mk start (flattenAll stmts))]
  | .ret line e => [.ret line e.flatten]
  | .expr line e => [.expr line e.flatten]

/-- The statements with bare blocks and imports replaced by what is in them. -/
def flattenAll : List Stmt → List Stmt
  | [] => []
  | s :: ss => s.flatten ++ flattenAll ss

end

/-- The program without bare blocks and imports. -/
def Program.flatten (p : Program) : Program := flattenAll p

/-- The function with its body flattened. -/
def Routine.flatten : Routine → Routine
  | .mk tag start file params (.mk brace stmts) =>
    .mk tag start file params (.mk brace (flattenAll stmts))

namespace Routine

variable (f : Routine)

theorem params_flatten : f.flatten.params = f.params := by
  obtain ⟨tag, start, file, params, ⟨brace, stmts⟩⟩ := f
  rfl

theorem file_flatten : f.flatten.file = f.file := by
  obtain ⟨tag, start, file, params, ⟨brace, stmts⟩⟩ := f
  rfl

theorem stmts_flatten : f.flatten.body.stmts = flattenAll f.body.stmts := by
  obtain ⟨tag, start, file, params, ⟨brace, stmts⟩⟩ := f
  rfl

end Routine

/-! ### Nodes -/

section Nodes

variable {L : Form → Nat → Nat → Prop} {F : Routine → Routine → Prop} {E : Expr → Expr → Prop}
variable {B : List Stmt → List Stmt → Prop} (hL : ∀ form line, L form line line)

theorem flattenArgs_eq (es : List Expr) : flattenArgs es = es.map Expr.flatten := by
  induction es with
  | nil => rfl
  | cons e es ih => rw [flattenArgs, ih, List.map_cons]

theorem flattenEntries_eq (es : List (Expr × Expr)) :
    flattenEntries es = es.map (Prod.map Expr.flatten Expr.flatten) := by
  induction es with
  | nil => rfl
  | cons entry es ih => rw [flattenEntries, ih, List.map_cons, Prod.map]

include hL

/-- A flat expression is the same at its node as before. -/
theorem Expr.sameNode_flatten (e : Expr) (hF : ∀ line f, e = .function line f → F f f.flatten)
    (hE : ∀ c ∈ e.parts, E c c.flatten) : e.SameNode L F E e.flatten := by
  cases e with
  | number line x =>
    rw [Expr.flatten]
    exact .number line line x
  | text line s =>
    rw [Expr.flatten]
    exact .text line line s
  | bool line b =>
    rw [Expr.flatten]
    exact .bool line line b
  | var line name =>
    rw [Expr.flatten]
    exact .var name (hL _ line)
  | function line f =>
    -- flattening looks into the body, so it is only carried out on a literal that is taken apart
    obtain ⟨tag, start, file, params, ⟨brace, stmts⟩⟩ := f
    rw [Expr.flatten]
    exact .function line line (hF line _ rfl)
  | unary line op e =>
    rw [Expr.flatten]
    exact .unary op (hL _ line) (hE e (by simp [parts]))
  | arith line op l r =>
    rw [Expr.flatten]
    exact .arith op (hL _ line) (hE l (by simp [parts])) (hE r (by simp [parts]))
  | compare line op l r =>
    rw [Expr.flatten]
    exact .compare op (hL _ line) (hE l (by simp [parts])) (hE r (by simp [parts]))
  | call line callee args =>
    obtain ⟨hcallee, hargs⟩ := List.forall_mem_cons.1 hE
    rw [Expr.flatten, flattenArgs_eq]
    exact .call (hL _ line) hcallee (List.forall₂_map_right_iff.2 (List.forall₂_same.2 hargs))
  | index line base key =>
    rw [Expr.flatten]
    exact .index (hL _ line) (hE base (by simp [parts])) (hE key (by simp [parts]))
  | table line entries =>
    rw [Expr.flatten, flattenEntries_eq]
    refine .table (hL _ line) (List.forall₂_map_right_iff.2 (List.forall₂_same.2 fun entry hentry => ?_))
    exact ⟨hE _ (List.mem_flatMap.2 ⟨entry, hentry, by simp⟩),
      hE _ (List.mem_flatMap.2 ⟨entry, hentry, by simp⟩)⟩

/-- What can be assigned to can be assigned to when it is flat. -/
theorem Expr.sameTarget_flatten (e : Expr) (hE : ∀ c ∈ e.targetParts, E c c.flatten) :
    e.SameTarget L E e.flatten := by
  cases e with
  | var line name =>
    rw [Expr.flatten]
    exact .var line line name
  | index line base key =>
    rw [Expr.flatten]
    exact .index (hL _ line) (hE base (by simp [targetParts])) (hE key (by simp [targetParts]))
  | function line f =>
    obtain ⟨tag, start, file, params, ⟨brace, stmts⟩⟩ := f
    rw [Expr.flatten]
    exact .invalid id id
  | number | text | bool | unary | arith | compare | call | table =>
    rw [Expr.flatten]
    exact .invalid id id

/-- A bare block and an import give way to their statements, and any other statement is the same at its
node as before. -/
theorem Stmt.flatten_cases (s : Stmt) (hE : ∀ c ∈ s.exprs, E c c.flatten)
    (hB : ∀ ss ∈ s.blocks, B ss (flattenAll ss)) :
    (∃ body, s = .block body ∧ s.flatten = flattenAll body.stmts) ∨
      (∃ line name p, s = .get line name p ∧ s.flatten = flattenAll p) ∨
        ∃ s', s.flatten = [s'] ∧ s.SameNode L E B (fun _ _ _ _ => False) s' := by
  cases s with
  | block body =>
    obtain ⟨line, stmts⟩ := body
    exact .inl ⟨_, rfl, by rw [Stmt.flatten]; rfl⟩
  | get line name p => exact .inr (.inl ⟨line, name, p, rfl, by rw [Stmt.flatten]⟩)
  | assign line how target value =>
    obtain ⟨hvalue, htarget⟩ := List.forall_mem_cons.1 hE
    refine .inr (.inr ⟨_, by rw [Stmt.flatten], ?_⟩)
    exact .assign (hL _ line) (target.sameTarget_flatten hL htarget) hvalue
  | cond line e yes no =>
    obtain ⟨start, yes⟩ := yes
    cases no with
    | none =>
      refine .inr (.inr ⟨_, by rw [Stmt.flatten], ?_⟩)
      exact .cond (hL _ line) (hE e (by simp [exprs])) (hB yes (by simp [blocks, Block.stmts])) .none
    | some no =>
      obtain ⟨start', no⟩ := no
      refine .inr (.inr ⟨_, by rw [Stmt.flatten], ?_⟩)
      exact .cond (hL _ line) (hE e (by simp [exprs])) (hB yes (by simp [blocks, Block.stmts]))
        (.some (hB no (by simp [blocks, Block.stmts])))
  | loop line e body =>
    obtain ⟨start, stmts⟩ := body
    refine .inr (.inr ⟨_, by rw [Stmt.flatten], ?_⟩)
    exact .loop (hL _ line) (hE e (by simp [exprs])) (hB stmts (by simp [blocks, Block.stmts]))
  | ret line e =>
    exact .inr (.inr ⟨_, by rw [Stmt.flatten], .ret (hL _ line) (hE e (by simp [exprs]))⟩)
  | expr line e =>
    exact .inr (.inr ⟨_, by rw [Stmt.flatten], .expr line line (hE e (by simp [exprs]))⟩)

end Nodes

/-! ### What is flat -/

theorem flattenAll_append (ss ss' : List Stmt) :
    flattenAll (ss ++ ss') = flattenAll ss ++ flattenAll ss' := by
  induction ss with
  | nil => rfl
  | cons s ss ih => rw [List.cons_append, flattenAll, flattenAll, ih, List.append_assoc]

theorem flattenAll_singleton (s : Stmt) : flattenAll [s] = s.flatten := by
  rw [flattenAll, flattenAll, List.append_nil]

mutual

theorem Expr.flatten_flatten : ∀ e : Expr, e.flatten.flatten = e.flatten
  | .number _ _ | .text _ _ | .bool _ _ | .var _ _ => by simp only [Expr.flatten]
  | .function _ (.mk _ _ _ _ (.mk _ stmts)) => by
    simp only [Expr.flatten, flattenAll_flattenAll stmts]
  | .unary _ _ e => by simp only [Expr.flatten, e.flatten_flatten]
  | .arith _ _ l r | .compare _ _ l r => by
    simp only [Expr.flatten, l.flatten_flatten, r.flatten_flatten]
  | .call _ callee args => by
    simp only [Expr.flatten, callee.flatten_flatten, flattenArgs_flattenArgs args]
  | .index _ base key => by simp only [Expr.flatten, base.flatten_flatten, key.flatten_flatten]
  | .table _ entries => by simp only [Expr.flatten, flattenEntries_flattenEntries entries]

theorem flattenArgs_flattenArgs : ∀ es : List Expr, flattenArgs (flattenArgs es) = flattenArgs es
  | [] => by simp only [flattenArgs]
  | e :: es => by simp only [flattenArgs, e.flatten_flatten, flattenArgs_flattenArgs es]

theorem flattenEntries_flattenEntries : ∀ es : List (Expr × Expr),
    flattenEntries (flattenEntries es) = flattenEntries es
  | [] => by simp only [flattenEntries]
  | (k, v) :: es => by
    simp only [flattenEntries, k.flatten_flatten, v.flatten_flatten,
      flattenEntries_flattenEntries es]

theorem Stmt.flattenAll_flatten : ∀ s : Stmt, flattenAll s.flatten = s.flatten
  | .block (.mk _ stmts) => by simp only [Stmt.flatten, flattenAll_flattenAll stmts]
  | .get _ _ program => by simp only [Stmt.flatten, flattenAll_flattenAll program]
  | .assign _ _ target value => by
    simp only [Stmt.flatten, flattenAll_singleton, target.flatten_flatten, value.flatten_flatten]
  | .cond _ e (.mk _ yes) none => by
    simp only [Stmt.flatten, flattenAll_singleton, e.flatten_flatten, flattenAll_flattenAll yes]
  | .cond _ e (.mk _ yes) (some (.mk _ no)) => by
    simp only [Stmt.flatten, flattenAll_singleton, e.flatten_flatten, flattenAll_flattenAll yes,
      flattenAll_flattenAll no]
  | .loop _ e (.mk _ stmts) => by
    simp only [Stmt.flatten, flattenAll_singleton, e.flatten_flatten, flattenAll_flattenAll stmts]
  | .ret _ e | .expr _ e => by simp only [Stmt.flatten, flattenAll_singleton, e.flatten_flatten]

/-- Flattening twice is flattening once. -/
theorem flattenAll_flattenAll : ∀ ss : List Stmt, flattenAll (flattenAll ss) = flattenAll ss
  | [] => by simp only [flattenAll]
  | s :: ss => by
    simp only [flattenAll, flattenAll_append, s.flattenAll_flatten, flattenAll_flattenAll ss]

end

end TableScript
