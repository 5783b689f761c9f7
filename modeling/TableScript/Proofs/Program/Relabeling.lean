import TableScript.Program.Label

/-!
# Relabeling the positions of code

Three things in a program say only where its code was written: the line of each node, the file that a
function literal notes, and the name that an import was asked for by.  A relabeling changes them and nothing
else.  It may treat code by where it stands, which it keeps in a position `π`: the body of a function and an
imported program have positions of their own, and all other code stands where the code around it does.

`relabelAll` is the one map over trees.  What is done to programs elsewhere is a relabeling: all code may be
given one position (`erasing`), the lines of a text may be moved and the programs that it imports left
alone (`ofText`), and each place may get lines of its own.  Four things are shown once for all of them.  The
identity changes nothing (`relabelAll_id`), relabelings that do the same from related positions are the
same (`relabelAll_congr`), one relabeling after another is a relabeling (`relabelAll_relabelAll`), and
function literals are numbered in the same way after it as before (`labelAll_relabelAll`).
-/

namespace TableScript

/-- New lines, new files for function literals to note, and new names for imports, each by the position of
the code. -/
structure Relabeling (π : Type) where
  line : π → Nat → Nat
  noted : π → Option String → Option String
  name : π → String → String
  /-- The position of the body of a function that notes a file. -/
  body : π → Option String → π
  /-- The position of an imported program, by its name. -/
  imported : π → String → π

variable {π ρ : Type}

/-! ### Programs -/

mutual

/-- An expression with other positions. -/
def Expr.relabel (g : Relabeling π) : π → Expr → Expr
  | p, .number line x => .number (g.line p line) x
  | p, .text line s => .text (g.line p line) s
  | p, .bool line b => .bool (g.line p line) b
  | p, .var line name => .var (g.line p line) name
  | p, .function line f => .function (g.line p line) (f.relabel g p)
  | p, .unary line op e => .unary (g.line p line) op (e.relabel g p)
  | p, .arith line op l r => .arith (g.line p line) op (l.relabel g p) (r.relabel g p)
  | p, .compare line op l r => .compare (g.line p line) op (l.relabel g p) (r.relabel g p)
  | p, .call line callee args => .call (g.line p line) (callee.relabel g p) (relabelArgs g p args)
  | p, .index line base key => .index (g.line p line) (base.relabel g p) (key.relabel g p)
  | p, .table line entries => .table (g.line p line) (relabelEntries g p entries)

/-- A function with other positions.  All of it stands where its body does. -/
def Routine.relabel (g : Relabeling π) : π → Routine → Routine
  | p, .mk tag line file params body =>
    .mk tag (g.line (g.body p file) line) (g.noted p file) params (body.relabel g (g.body p file))

/-- A block with other positions. -/
def Block.relabel (g : Relabeling π) : π → Block → Block
  | p, .mk line stmts => .mk (g.line p line) (relabelAll g p stmts)

/-- Expressions with other positions. -/
def relabelArgs (g : Relabeling π) : π → List Expr → List Expr
  | _, [] => []
  | p, e :: es => e.relabel g p :: relabelArgs g p es

/-- Table entries with other positions. -/
def relabelEntries (g : Relabeling π) : π → List (Expr × Expr) → List (Expr × Expr)
  | _, [] => []
  | p, (k, v) :: es => (k.relabel g p, v.relabel g p) :: relabelEntries g p es

/-- A statement with other positions. -/
def Stmt.relabel (g : Relabeling π) : π → Stmt → Stmt
  | p, .assign line how target value =>
    .assign (g.line p line) how (target.relabel g p) (value.relabel g p)
  | p, .block body => .block (body.relabel g p)
  | p, .get line name program =>
    .get (g.line p line) (g.name p name) (relabelAll g (g.imported p name) program)
  | p, .cond line e yes none => .cond (g.line p line) (e.relabel g p) (yes.relabel g p) none
  | p, .cond line e yes (some no) =>
    .cond (g.line p line) (e.relabel g p) (yes.relabel g p) (some (no.relabel g p))
  | p, .loop line e body => .loop (g.line p line) (e.relabel g p) (body.relabel g p)
  | p, .ret line e => .ret (g.line p line) (e.relabel g p)
  | p, .expr line e => .expr (g.line p line) (e.relabel g p)

/-- Statements with other positions. -/
def relabelAll (g : Relabeling π) : π → List Stmt → List Stmt
  | _, [] => []
  | p, s :: ss => s.relabel g p :: relabelAll g p ss

end

/-! Lists are relabeled member by member. -/

section Lists

variable (g : Relabeling π) (p : π)

theorem relabelArgs_eq (es : List Expr) : relabelArgs g p es = es.map (Expr.relabel g p) := by
  induction es with
  | nil => rfl
  | cons e es ih => rw [relabelArgs, ih, List.map_cons]

theorem relabelEntries_eq (es : List (Expr × Expr)) :
    relabelEntries g p es = es.map (Prod.map (Expr.relabel g p) (Expr.relabel g p)) := by
  induction es with
  | nil => rfl
  | cons entry es ih => rw [relabelEntries, ih, List.map_cons, Prod.map]

theorem relabelAll_eq (ss : List Stmt) : relabelAll g p ss = ss.map (Stmt.relabel g p) := by
  induction ss with
  | nil => rfl
  | cons s ss ih => rw [relabelAll, ih, List.map_cons]

end Lists

namespace Routine

variable (g : Relabeling π) (p : π) (f : Routine)

theorem params_relabel : (f.relabel g p).params = f.params := by
  obtain ⟨tag, line, file, params, body⟩ := f
  rfl

theorem file_relabel : (f.relabel g p).file = g.noted p f.file := by
  obtain ⟨tag, line, file, params, body⟩ := f
  rfl

theorem stmts_relabel : (f.relabel g p).body.stmts = relabelAll g (g.body p f.file) f.body.stmts := by
  obtain ⟨tag, line, file, params, ⟨brace, stmts⟩⟩ := f
  rfl

end Routine

/-! ### The same everywhere -/

namespace Relabeling

/-- Treats all code in the same way. -/
def uniform (line : Nat → Nat) (noted : Option String → Option String) (name : String → String) :
    Relabeling Unit :=
  ⟨fun _ => line, fun _ => noted, fun _ => name, fun _ _ => (), fun _ _ => ()⟩

/-- Leaves everything as it is. -/
protected def id : Relabeling Unit := uniform (fun line => line) (fun file => file) fun name => name

/-- Gives all code the same position. -/
def erasing : Relabeling Unit := uniform (fun _ => 0) (fun _ => none) fun _ => ""

/-- Changes lines only. -/
def ofLine (f : Nat → Nat) : Relabeling Unit := uniform f (fun file => file) fun name => name

end Relabeling

mutual

theorem Expr.relabel_id : ∀ e : Expr, e.relabel .id () = e
  | .number _ _ | .text _ _ | .bool _ _ | .var _ _ => rfl
  | .function _ f => by
    rw [Expr.relabel, f.relabel_id]
    rfl
  | .unary _ _ e => by
    rw [Expr.relabel, e.relabel_id]
    rfl
  | .arith _ _ l r | .compare _ _ l r => by
    rw [Expr.relabel, l.relabel_id, r.relabel_id]
    rfl
  | .call _ callee args => by
    rw [Expr.relabel, callee.relabel_id, relabelArgs_id args]
    rfl
  | .index _ base key => by
    rw [Expr.relabel, base.relabel_id, key.relabel_id]
    rfl
  | .table _ entries => by
    rw [Expr.relabel, relabelEntries_id entries]
    rfl

theorem Routine.relabel_id : ∀ f : Routine, f.relabel .id () = f
  | .mk _ _ _ _ body => by
    have hbody : body.relabel .id () = body := body.relabel_id
    rw [Routine.relabel]
    exact congrArg (Routine.mk _ _ _ _) hbody

theorem Block.relabel_id : ∀ body : Block, body.relabel .id () = body
  | .mk _ stmts => by
    rw [Block.relabel, relabelAll_id stmts]
    rfl

theorem relabelArgs_id : ∀ es : List Expr, relabelArgs .id () es = es
  | [] => rfl
  | e :: es => by rw [relabelArgs, e.relabel_id, relabelArgs_id es]

theorem relabelEntries_id : ∀ es : List (Expr × Expr), relabelEntries .id () es = es
  | [] => rfl
  | (k, v) :: es => by rw [relabelEntries, k.relabel_id, v.relabel_id, relabelEntries_id es]

theorem Stmt.relabel_id : ∀ s : Stmt, s.relabel .id () = s
  | .assign _ _ target value => by
    rw [Stmt.relabel, target.relabel_id, value.relabel_id]
    rfl
  | .block body => by rw [Stmt.relabel, body.relabel_id]
  | .get _ _ program => by
    have hprogram : relabelAll .id () program = program := relabelAll_id program
    rw [Stmt.relabel]
    exact congrArg (Stmt.get _ _) hprogram
  | .cond _ e yes none => by
    rw [Stmt.relabel, e.relabel_id, yes.relabel_id]
    rfl
  | .cond _ e yes (some no) => by
    rw [Stmt.relabel, e.relabel_id, yes.relabel_id, no.relabel_id]
    rfl
  | .loop _ e body => by
    rw [Stmt.relabel, e.relabel_id, body.relabel_id]
    rfl
  | .ret _ e | .expr _ e => by
    rw [Stmt.relabel, e.relabel_id]
    rfl

theorem relabelAll_id : ∀ ss : List Stmt, relabelAll .id () ss = ss
  | [] => rfl
  | s :: ss => by rw [relabelAll, s.relabel_id, relabelAll_id ss]

end

/-! ### Relabelings that do the same -/

/-- From positions that `R` relates, both relabelings do the same, and they come to such positions again. -/
structure Relabeling.Alike (g : Relabeling π) (h : Relabeling ρ) (R : π → ρ → Prop) : Prop where
  line : ∀ {p q}, R p q → ∀ line, g.line p line = h.line q line
  noted : ∀ {p q}, R p q → ∀ file, g.noted p file = h.noted q file
  name : ∀ {p q}, R p q → ∀ name, g.name p name = h.name q name
  body : ∀ {p q}, R p q → ∀ file, R (g.body p file) (h.body q file)
  imported : ∀ {p q}, R p q → ∀ name, R (g.imported p name) (h.imported q name)

section Congr

variable {g : Relabeling π} {h : Relabeling ρ} {R : π → ρ → Prop}

mutual

theorem Expr.relabel_congr (hgh : g.Alike h R) :
    ∀ {p : π} {q : ρ}, R p q → ∀ e : Expr, e.relabel g p = e.relabel h q
  | _, _, hpq, .number _ _ | _, _, hpq, .text _ _ | _, _, hpq, .bool _ _ | _, _, hpq, .var _ _ => by
    simp only [Expr.relabel, hgh.line hpq]
  | _, _, hpq, .function _ f => by simp only [Expr.relabel, hgh.line hpq, f.relabel_congr hgh hpq]
  | _, _, hpq, .unary _ _ e => by simp only [Expr.relabel, hgh.line hpq, e.relabel_congr hgh hpq]
  | _, _, hpq, .arith _ _ l r | _, _, hpq, .compare _ _ l r => by
    simp only [Expr.relabel, hgh.line hpq, l.relabel_congr hgh hpq, r.relabel_congr hgh hpq]
  | _, _, hpq, .call _ callee args => by
    simp only [Expr.relabel, hgh.line hpq, callee.relabel_congr hgh hpq, relabelArgs_congr hgh hpq args]
  | _, _, hpq, .index _ base key => by
    simp only [Expr.relabel, hgh.line hpq, base.relabel_congr hgh hpq, key.relabel_congr hgh hpq]
  | _, _, hpq, .table _ entries => by
    simp only [Expr.relabel, hgh.line hpq, relabelEntries_congr hgh hpq entries]

theorem Routine.relabel_congr (hgh : g.Alike h R) :
    ∀ {p : π} {q : ρ}, R p q → ∀ f : Routine, f.relabel g p = f.relabel h q
  | _, _, hpq, .mk _ _ file _ body => by
    simp only [Routine.relabel, hgh.line (hgh.body hpq file), hgh.noted hpq,
      body.relabel_congr hgh (hgh.body hpq file)]

theorem Block.relabel_congr (hgh : g.Alike h R) :
    ∀ {p : π} {q : ρ}, R p q → ∀ body : Block, body.relabel g p = body.relabel h q
  | _, _, hpq, .mk _ stmts => by simp only [Block.relabel, hgh.line hpq, relabelAll_congr hgh hpq stmts]

theorem relabelArgs_congr (hgh : g.Alike h R) :
    ∀ {p : π} {q : ρ}, R p q → ∀ es : List Expr, relabelArgs g p es = relabelArgs h q es
  | _, _, _, [] => rfl
  | _, _, hpq, e :: es => by simp only [relabelArgs, e.relabel_congr hgh hpq, relabelArgs_congr hgh hpq es]

theorem relabelEntries_congr (hgh : g.Alike h R) :
    ∀ {p : π} {q : ρ}, R p q → ∀ es : List (Expr × Expr),
      relabelEntries g p es = relabelEntries h q es
  | _, _, _, [] => rfl
  | _, _, hpq, (k, v) :: es => by
    simp only [relabelEntries, k.relabel_congr hgh hpq, v.relabel_congr hgh hpq,
      relabelEntries_congr hgh hpq es]

theorem Stmt.relabel_congr (hgh : g.Alike h R) :
    ∀ {p : π} {q : ρ}, R p q → ∀ s : Stmt, s.relabel g p = s.relabel h q
  | _, _, hpq, .assign _ _ target value => by
    simp only [Stmt.relabel, hgh.line hpq, target.relabel_congr hgh hpq, value.relabel_congr hgh hpq]
  | _, _, hpq, .block body => by simp only [Stmt.relabel, body.relabel_congr hgh hpq]
  | _, _, hpq, .get _ name program => by
    simp only [Stmt.relabel, hgh.line hpq, hgh.name hpq,
      relabelAll_congr hgh (hgh.imported hpq name) program]
  | _, _, hpq, .cond _ e yes none => by
    simp only [Stmt.relabel, hgh.line hpq, e.relabel_congr hgh hpq, yes.relabel_congr hgh hpq]
  | _, _, hpq, .cond _ e yes (some no) => by
    simp only [Stmt.relabel, hgh.line hpq, e.relabel_congr hgh hpq, yes.relabel_congr hgh hpq,
      no.relabel_congr hgh hpq]
  | _, _, hpq, .loop _ e body => by
    simp only [Stmt.relabel, hgh.line hpq, e.relabel_congr hgh hpq, body.relabel_congr hgh hpq]
  | _, _, hpq, .ret _ e | _, _, hpq, .expr _ e => by
    simp only [Stmt.relabel, hgh.line hpq, e.relabel_congr hgh hpq]

theorem relabelAll_congr (hgh : g.Alike h R) :
    ∀ {p : π} {q : ρ}, R p q → ∀ ss : List Stmt, relabelAll g p ss = relabelAll h q ss
  | _, _, _, [] => rfl
  | _, _, hpq, s :: ss => by simp only [relabelAll, s.relabel_congr hgh hpq, relabelAll_congr hgh hpq ss]

end

end Congr

/-! ### One relabeling after another -/

/-- First `h` and then `g`, which sees what `h` made of the files and names. -/
def Relabeling.after (g : Relabeling π) (h : Relabeling ρ) : Relabeling (π × ρ) where
  line p line := g.line p.1 (h.line p.2 line)
  noted p file := g.noted p.1 (h.noted p.2 file)
  name p name := g.name p.1 (h.name p.2 name)
  body p file := (g.body p.1 (h.noted p.2 file), h.body p.2 file)
  imported p name := (g.imported p.1 (h.name p.2 name), h.imported p.2 name)

section After

variable (g : Relabeling π) (h : Relabeling ρ)

mutual

theorem Expr.relabel_relabel :
    ∀ (p : π) (q : ρ) (e : Expr), (e.relabel h q).relabel g p = e.relabel (g.after h) (p, q)
  | _, _, .number _ _ | _, _, .text _ _ | _, _, .bool _ _ | _, _, .var _ _ => rfl
  | p, q, .function _ f => by
    simp only [Expr.relabel, f.relabel_relabel p q]
    rfl
  | p, q, .unary _ _ e => by
    simp only [Expr.relabel, e.relabel_relabel p q]
    rfl
  | p, q, .arith _ _ l r | p, q, .compare _ _ l r => by
    simp only [Expr.relabel, l.relabel_relabel p q, r.relabel_relabel p q]
    rfl
  | p, q, .call _ callee args => by
    simp only [Expr.relabel, callee.relabel_relabel p q, relabelArgs_relabelArgs p q args]
    rfl
  | p, q, .index _ base key => by
    simp only [Expr.relabel, base.relabel_relabel p q, key.relabel_relabel p q]
    rfl
  | p, q, .table _ entries => by
    simp only [Expr.relabel, relabelEntries_relabelEntries p q entries]
    rfl

theorem Routine.relabel_relabel :
    ∀ (p : π) (q : ρ) (f : Routine), (f.relabel h q).relabel g p = f.relabel (g.after h) (p, q)
  | _, _, .mk _ _ _ _ body => by
    simp only [Routine.relabel, body.relabel_relabel]
    rfl

theorem Block.relabel_relabel : ∀ (p : π) (q : ρ) (body : Block),
    (body.relabel h q).relabel g p = body.relabel (g.after h) (p, q)
  | p, q, .mk _ stmts => by
    simp only [Block.relabel, relabelAll_relabelAll p q stmts]
    rfl

theorem relabelArgs_relabelArgs : ∀ (p : π) (q : ρ) (es : List Expr),
    relabelArgs g p (relabelArgs h q es) = relabelArgs (g.after h) (p, q) es
  | _, _, [] => rfl
  | p, q, e :: es => by
    simp only [relabelArgs, e.relabel_relabel p q, relabelArgs_relabelArgs p q es]

theorem relabelEntries_relabelEntries : ∀ (p : π) (q : ρ) (es : List (Expr × Expr)),
    relabelEntries g p (relabelEntries h q es) = relabelEntries (g.after h) (p, q) es
  | _, _, [] => rfl
  | p, q, (k, v) :: es => by
    simp only [relabelEntries, k.relabel_relabel p q, v.relabel_relabel p q,
      relabelEntries_relabelEntries p q es]

theorem Stmt.relabel_relabel :
    ∀ (p : π) (q : ρ) (s : Stmt), (s.relabel h q).relabel g p = s.relabel (g.after h) (p, q)
  | p, q, .assign _ _ target value => by
    simp only [Stmt.relabel, target.relabel_relabel p q, value.relabel_relabel p q]
    rfl
  | p, q, .block body => by simp only [Stmt.relabel, body.relabel_relabel p q]
  | _, _, .get _ _ program => by
    simp only [Stmt.relabel, relabelAll_relabelAll _ _ program]
    rfl
  | p, q, .cond _ e yes none => by
    simp only [Stmt.relabel, e.relabel_relabel p q, yes.relabel_relabel p q]
    rfl
  | p, q, .cond _ e yes (some no) => by
    simp only [Stmt.relabel, e.relabel_relabel p q, yes.relabel_relabel p q, no.relabel_relabel p q]
    rfl
  | p, q, .loop _ e body => by
    simp only [Stmt.relabel, e.relabel_relabel p q, body.relabel_relabel p q]
    rfl
  | p, q, .ret _ e | p, q, .expr _ e => by
    simp only [Stmt.relabel, e.relabel_relabel p q]
    rfl

theorem relabelAll_relabelAll : ∀ (p : π) (q : ρ) (ss : List Stmt),
    relabelAll g p (relabelAll h q ss) = relabelAll (g.after h) (p, q) ss
  | _, _, [] => rfl
  | p, q, s :: ss => by simp only [relabelAll, s.relabel_relabel p q, relabelAll_relabelAll p q ss]

end

end After

/-! ### Numbering -/

section Label

variable (g : Relabeling π)

mutual

theorem Expr.label_relabel : ∀ (p : π) (e : Expr) (n : Nat),
    (e.relabel g p).label n = ((e.label n).1.relabel g p, (e.label n).2)
  | _, .number _ _, _ | _, .text _ _, _ | _, .bool _ _, _ | _, .var _ _, _ => by
    simp only [Expr.relabel, Expr.label]
  | p, .function _ (.mk _ _ file _ (.mk _ stmts)), n => by
    simp only [Expr.relabel, Routine.relabel, Block.relabel, Expr.label,
      labelAll_relabelAll (g.body p file) stmts]
  | p, .unary _ _ e, n => by simp only [Expr.relabel, Expr.label, e.label_relabel p]
  | p, .arith _ _ l r, n | p, .compare _ _ l r, n => by
    simp only [Expr.relabel, Expr.label, l.label_relabel p, r.label_relabel p]
  | p, .call _ callee args, n => by
    simp only [Expr.relabel, Expr.label, callee.label_relabel p, labelArgs_relabelArgs p args]
  | p, .index _ base key, n => by
    simp only [Expr.relabel, Expr.label, base.label_relabel p, key.label_relabel p]
  | p, .table _ entries, n => by
    simp only [Expr.relabel, Expr.label, labelEntries_relabelEntries p entries]

theorem labelArgs_relabelArgs : ∀ (p : π) (es : List Expr) (n : Nat),
    labelArgs (relabelArgs g p es) n = (relabelArgs g p (labelArgs es n).1, (labelArgs es n).2)
  | _, [], _ => by simp only [relabelArgs, labelArgs]
  | p, e :: es, n => by
    simp only [relabelArgs, labelArgs, e.label_relabel p, labelArgs_relabelArgs p es]

theorem labelEntries_relabelEntries : ∀ (p : π) (es : List (Expr × Expr)) (n : Nat),
    labelEntries (relabelEntries g p es) n =
      (relabelEntries g p (labelEntries es n).1, (labelEntries es n).2)
  | _, [], _ => by simp only [relabelEntries, labelEntries]
  | p, (k, v) :: es, n => by
    simp only [relabelEntries, labelEntries, k.label_relabel p, v.label_relabel p,
      labelEntries_relabelEntries p es]

theorem Stmt.label_relabel : ∀ (p : π) (s : Stmt) (n : Nat),
    (s.relabel g p).label n = ((s.label n).1.relabel g p, (s.label n).2)
  | p, .assign _ _ target value, n => by
    simp only [Stmt.relabel, Stmt.label, target.label_relabel p, value.label_relabel p]
  | p, .block (.mk _ stmts), n => by
    simp only [Stmt.relabel, Block.relabel, Stmt.label, labelAll_relabelAll p stmts]
  | p, .get _ name program, n => by
    simp only [Stmt.relabel, Stmt.label, labelAll_relabelAll (g.imported p name) program]
  | p, .cond _ e (.mk _ yes) none, n => by
    simp only [Stmt.relabel, Block.relabel, Stmt.label, e.label_relabel p, labelAll_relabelAll p yes]
  | p, .cond _ e (.mk _ yes) (some (.mk _ no)), n => by
    simp only [Stmt.relabel, Block.relabel, Stmt.label, e.label_relabel p, labelAll_relabelAll p yes,
      labelAll_relabelAll p no]
  | p, .loop _ e (.mk _ stmts), n => by
    simp only [Stmt.relabel, Block.relabel, Stmt.label, e.label_relabel p, labelAll_relabelAll p stmts]
  | p, .ret _ e, n | p, .expr _ e, n => by simp only [Stmt.relabel, Stmt.label, e.label_relabel p]

theorem labelAll_relabelAll : ∀ (p : π) (ss : List Stmt) (n : Nat),
    labelAll (relabelAll g p ss) n = (relabelAll g p (labelAll ss n).1, (labelAll ss n).2)
  | _, [], _ => by simp only [relabelAll, labelAll]
  | p, s :: ss, n => by simp only [relabelAll, labelAll, s.label_relabel p, labelAll_relabelAll p ss]

end

end Label

end TableScript
