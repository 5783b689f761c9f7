import TableScript.Machine.Eval
import TableScript.Proofs.Evaluation.Images
import TableScript.Proofs.Program.Parts

/-!
# Relations that evaluation keeps

A relation between runs that is kept by sequencing, by frames and by the basic steps on machines is kept
by the rules of evaluation: it holds between the runs of code if it holds between the runs of its parts.
`Stepwise t R` says that `R` is such a relation, and `Stepwise.evalRule` and `Stepwise.execRule` are the walk
over expressions and statements, which is made here once for all relations.

What the two runs may have to do with one another is said by the `Terms`: how the lines of their code differ,
which functions are related, and which tables values can be.  All code is made of nodes, so a relation may
rest on what nodes there are: names are overwritten only where there is a node that says so.  The two runs
need not be on states of the same kind.

Three things are left to the relation at hand: calls, since what a call runs is no part of the call; files,
since code of another file may be related in another way; and the number of turns of a loop.  A relation that
is kept by these as well holds between the runs of whole programs (`Parametric`).  Here the code of the
second run is the code of the first with other positions, and it may have more fuel (`Comparison`).  The proof
is by induction on fuel (`Parametric.eval_exec`).

An expression never binds a name in the current frame, and it does not set the result of the current
call.  A relation may therefore say more of expressions than of statements, and what runs in a frame of
its own counts as an expression (`inFrame`, `inCall`).

A relation may ignore its second run.  Then it is about what one run does.
-/

namespace TableScript

/-- What a piece of a program is. -/
inductive Part where
  | expression | statement

/-- The terms on which two runs are compared. -/
structure Terms where
  /-- Which lines nodes can have in the code of the two runs. -/
  lines : Form → Nat → Nat → Prop := fun _ => Eq
  /-- Which functions are related.  They have the same parameters. -/
  function : Routine → Routine → Prop := Eq
  params : ∀ {f f'}, function f f' → f'.params = f.params := by
    rintro _ _ rfl
    rfl
  /-- The tables that values can be. -/
  known : TableId → Prop := fun _ => True
  /-- The tables that literals fill. -/
  fresh : TableId → Prop := fun _ => True

/-- The same value up to functions, which are related. -/
@[reducible] def Terms.Related (t : Terms) : Value → Value → Prop := Value.Alike t.function t.known

namespace Run

theorem mapError_id {α : Type} (r : Except Stop α) : r.mapError id = r := by
  cases r with
  | error s => rfl
  | ok a => rfl

/-- Whatever file a run enters, it is the run in that file up to its marks and to the file it leaves. -/
theorem inFile_cases (file : Option String) {α : Type} (x : Run α) (m : Machine) :
    ∃ (mark : Stop → Stop) (left : Option String), (mark = id ∨ ∃ name, mark = Stop.inFile name) ∧
      inFile file x m = ((x { m with file }).1.mapError mark,
        { (x { m with file }).2 with file := left }) := by
  rw [inFile_apply]
  by_cases hfile : m.file = file
  · subst hfile
    refine ⟨id, (x m).2.file, .inl rfl, ?_⟩
    rw [if_pos rfl, mapError_id]
  · rw [if_neg hfile]
    cases file with
    | none => exact ⟨id, m.file, .inl rfl, by rw [mapError_id]; rfl⟩
    | some name =>
      refine ⟨Stop.inFile name, m.file, .inr ⟨name, rfl⟩, ?_⟩
      simp only [Action.between_apply, Action.mapError_apply]

theorem ok_of_inFile {file : Option String} {α : Type} {x : Run α} {m : Machine} {a : α}
    (h : (inFile file x m).1 = .ok a) : (x { m with file }).1 = .ok a := by
  obtain ⟨mark, left, -, hrun⟩ := inFile_cases file x m
  rw [hrun] at h
  generalize (x { m with file }).1 = r at h ⊢
  cases r with
  | error s => cases h
  | ok b => exact h

/-! ### The rules -/

section Rules

variable {σ τ : Type} [HasMachine σ] [HasMachine τ]

/-- A relation that is kept by sequencing, by frames and by the basic steps.  `R part α A x y` relates runs
of pieces of that kind, whose results `A` relates. -/
structure Stepwise (t : Terms)
    (R : Part → (α : Type) → (α → α → Prop) → RunOn σ α → RunOn τ α → Prop) : Prop where
  weaken : ∀ {α : Type} {A : α → α → Prop} {x : RunOn σ α} {y : RunOn τ α},
    R .expression α A x y → R .statement α A x y
  pure : ∀ {part : Part} {α : Type} {A : α → α → Prop} {a a' : α}, A a a' →
    R part α A (Pure.pure a) (Pure.pure a')
  bind : ∀ {part : Part} {α β : Type} {A : α → α → Prop} {B : β → β → Prop} {x : RunOn σ α}
    {y : RunOn τ α} {f : α → RunOn σ β} {f' : α → RunOn τ β}, R part α A x y →
      (∀ a a', A a a' → R part β B (f a) (f' a')) → R part β B (x >>= f) (y >>= f')
  failAt : ∀ {part : Part} {α : Type} {A : α → α → Prop} {form : Form} {line line' : Nat},
    t.lines form line line' → ∀ e : RuntimeError, R part α A (failAt line e) (failAt line' e)
  lookup : ∀ {line line' : Nat}, t.lines .other line line' → ∀ name : String,
    R .expression Value t.Related (step (lookup line name)) (step (lookup line' name))
  define : ∀ (name : String) {v v' : Value}, t.Related v v' →
    R .statement Unit (fun _ _ => True) (step (define name v)) (step (define name v'))
  reassign : ∀ {line line' : Nat} {name : String} {v v' : Value},
    t.lines (.reassign name) line line' → t.Related v v' → R .statement Unit (fun _ _ => True)
      (step (reassign line name v)) (step (reassign line' name v'))
  setResult : ∀ {line line' : Nat} {v v' : Value}, t.lines .other line line' → t.Related v v' →
    R .statement Unit (fun _ _ => True) (step (setResult line v)) (step (setResult line' v'))
  result : R .statement Value t.Related (step result) (step result)
  newTable : R .expression TableId (fun i i' => i' = i ∧ t.known i ∧ t.fresh i) (step newTable)
    (step newTable)
  getEntry : ∀ {i : TableId}, t.known i → ∀ key : Key,
    R .expression Value t.Related (step (getEntry i key)) (step (getEntry i key))
  setFresh : ∀ {i : TableId}, t.fresh i → ∀ (key : Key) {v v' : Value}, t.Related v v' →
    R .expression Unit (fun _ _ => True) (step (setEntry i key v)) (step (setEntry i key v'))
  store : ∀ {line line' : Nat}, t.lines .store line line' →
    ∀ (i : TableId) (key : Key) {v v' : Value}, t.Related v v' →
      R .statement Unit (fun _ _ => True) (step (setEntry i key v)) (step (setEntry i key v'))
  inFrame : ∀ {α : Type} {A : α → α → Prop} {x : RunOn σ α} {y : RunOn τ α}, R .statement α A x y →
    R .expression α A (inFrame .block x) (inFrame .block y)

namespace Stepwise

variable {t : Terms} {R : Part → (α : Type) → (α → α → Prop) → RunOn σ α → RunOn τ α → Prop}
variable (hR : Stepwise t R) {α : Type} {A : α → α → Prop} {part : Part}
variable {form : Form} {line line' : Nat}

include hR

theorem check (hline : t.lines form line line') {r r' : Except RuntimeError α} (h : Agree A r r') :
    R part α A (check line r) (check line' r') := by
  cases h with
  | ok ha => exact hR.pure ha
  | error e => exact hR.failAt hline e

theorem bindParams (names : List String) {vs vs' : List Value} (hvs : List.Forall₂ t.Related vs vs') :
    R .statement Unit (fun _ _ => True) (bindParams names vs) (bindParams names vs') := by
  induction names generalizing vs vs' with
  | nil => exact hR.pure trivial
  | cons name names ih =>
    cases hvs with
    | nil => exact hR.pure trivial
    | cons hv hvs => exact hR.bind (hR.define name hv) fun _ _ _ => ih hvs

variable {eval : Expr → RunOn σ Value} {eval' : Expr → RunOn τ Value}
variable {exec : Stmt → RunOn σ Flow} {exec' : Stmt → RunOn τ Flow}

/-! Lists of statements, and loops. -/

theorem execAll {ss ss' : List Stmt}
    (hss : List.Forall₂ (fun s s' => R .statement Flow Eq (exec s) (exec' s')) ss ss') :
    R .statement Flow Eq (execAll exec ss) (execAll exec' ss') := by
  induction hss with
  | nil => exact hR.pure rfl
  | cons hs _ ih =>
    refine hR.bind hs fun flow flow' hflow => ?_
    obtain rfl : flow = flow' := hflow
    cases flow with
    | normal => exact ih
    | returned => exact hR.pure rfl

theorem execAll_relabelAll {π : Type} (g : Relabeling π) (p : π) {ss : List Stmt}
    (hss : ∀ s ∈ ss, R .statement Flow Eq (exec s) (exec' (s.relabel g p))) :
    R .statement Flow Eq (Run.execAll exec ss) (Run.execAll exec' (relabelAll g p ss)) := by
  rw [relabelAll_eq]
  exact hR.execAll (List.forall₂_map_right_iff.2 (List.forall₂_same.2 hss))

/-- If one run may take more turns than the other, then it goes on where that has used up its turns. -/
theorem repeatWhile {condition : RunOn σ Bool} {condition' : RunOn τ Bool} {body : RunOn σ Flow}
    {body' : RunOn τ Flow} {turns turns' : Nat}
    (hfuel : ∀ more, turns' = more + turns →
      R .statement Flow Eq outOfFuel (repeatWhile condition' body' more))
    (hfuel' : ∀ more, turns = more + turns' →
      R .statement Flow Eq (Run.repeatWhile condition body more) outOfFuel)
    (hcondition : R .statement Bool Eq condition condition') (hbody : R .statement Flow Eq body body') :
    R .statement Flow Eq (repeatWhile condition body turns) (repeatWhile condition' body' turns') := by
  induction turns generalizing turns' with
  | zero => exact hfuel turns' rfl
  | succ turns ih =>
    cases turns' with
    | zero => exact hfuel' (turns + 1) rfl
    | succ turns' =>
      refine hR.bind hcondition fun b b' hb => ?_
      obtain rfl : b = b' := hb
      cases b with
      | false => exact hR.pure rfl
      | true =>
        refine hR.bind hbody fun flow flow' hflow => ?_
        obtain rfl : flow = flow' := hflow
        cases flow with
        | normal => exact ih (fun more h => hfuel more (by omega)) fun more h => hfuel' more (by omega)
        | returned => exact hR.pure rfl

theorem repeatWhile_same {condition : RunOn σ Bool} {condition' : RunOn τ Bool} {body : RunOn σ Flow}
    {body' : RunOn τ Flow} (hfuel : R .statement Flow Eq outOfFuel outOfFuel)
    (hcondition : R .statement Bool Eq condition condition') (hbody : R .statement Flow Eq body body')
    (turns : Nat) :
    R .statement Flow Eq (Run.repeatWhile condition body turns)
      (Run.repeatWhile condition' body' turns) := by
  refine hR.repeatWhile (fun more hmore => ?_) (fun more hmore => ?_) hcondition hbody
  all_goals
    obtain rfl : more = 0 := by omega
    exact hfuel

/-! Expressions.  `E` relates expressions whose runs are related. -/

variable {E : Expr → Expr → Prop}
variable (heval : ∀ c c', E c c' → R .expression Value t.Related (eval c) (eval' c'))

include heval

/-- An expression whose value has to be of some kind. -/
theorem evalAs (hline : t.lines form line line') {e e' : Expr} (he : E e e')
    {as : Value → Except RuntimeError α} (has : ∀ v v', t.Related v v' → Agree A (as v) (as v')) :
    R .expression α A (do let v ← eval e; Run.check line (as v))
      (do let v ← eval' e'; Run.check line' (as v)) :=
  hR.bind (heval e e' he) fun v v' hv => hR.check hline (has v v' hv)

theorem evalAll {es es' : List Expr} (hes : List.Forall₂ E es es') :
    R .expression (List Value) (List.Forall₂ t.Related) (evalAll eval es) (evalAll eval' es') := by
  induction hes with
  | nil => exact hR.pure .nil
  | cons he _ ih =>
    refine hR.bind (heval _ _ he) fun v v' hv => hR.bind ih fun vs vs' hvs => ?_
    exact hR.pure (.cons hv hvs)

theorem fill (hline : t.lines form line line') {i : TableId} (hi : t.fresh i)
    {entries entries' : List (Expr × Expr)}
    (hes : List.Forall₂ (fun x y => E x.1 y.1 ∧ E x.2 y.2) entries entries') :
    R .expression Unit (fun _ _ => True) (fill eval line i entries) (fill eval' line' i entries') := by
  induction hes with
  | nil => exact hR.pure trivial
  | cons he _ ih =>
    obtain ⟨hkey, hvalue⟩ := he
    refine hR.bind (hR.evalAs heval hline hkey fun v v' hv => hv.toKey) fun key key' hkeys => ?_
    obtain rfl : key = key' := hkeys
    refine hR.bind (heval _ _ hvalue) fun v v' hv => hR.bind (hR.setFresh hi key hv) fun _ _ _ => ?_
    exact ih

section Call

-- the bodies of related functions are related where they run
variable (hbody : ∀ f f', t.function f f' → R .statement Flow Eq
  (inFile f.file (Run.execAll exec f.body.stmts)) (inFile f'.file (Run.execAll exec' f'.body.stmts)))
variable {args args' : List Expr} (hargs : List.Forall₂ E args args')

include hbody hargs

theorem callRoutine {f f' : Routine} (hf : t.function f f') :
    R .statement Value t.Related (callRoutine eval exec f args) (callRoutine eval' exec' f' args') := by
  -- arguments are evaluated in the frame of the call, before the parameters are bound there
  refine hR.bind (hR.weaken (hR.evalAll heval hargs)) fun vs vs' hvs => ?_
  rw [t.params hf]
  refine hR.bind (hR.bindParams f.params hvs) fun _ _ _ => ?_
  exact hR.bind (hbody f f' hf) fun _ _ _ => hR.result

/-- What a call does in its frame. -/
theorem callBody (hline : t.lines form line line') {callee callee' : Expr} (hcallee : E callee callee') :
    R .statement Value t.Related (callBody eval exec line callee args)
      (callBody eval' exec' line' callee' args') := by
  have hroutine := hR.evalAs heval hline hcallee fun v v' hv => hv.toRoutine
  exact hR.bind (hR.weaken hroutine) fun f f' hf => hR.callRoutine heval hbody hargs hf

end Call

/-- The rule for expressions. -/
theorem evalRule {e e' : Expr} (h : e.SameNode t.lines t.function E e')
    (hcall : ∀ {line line' callee callee' args args'}, t.lines .call line line' → E callee callee' →
      List.Forall₂ E args args' → R .expression Value t.Related
        (inCall line (Run.callBody eval exec line callee args))
        (inCall line' (Run.callBody eval' exec' line' callee' args'))) :
    R .expression Value t.Related (evalRule eval exec e) (evalRule eval' exec' e') := by
  cases h with
  | number _ _ x => exact hR.pure (.number x)
  | text _ _ s => exact hR.pure (.text s)
  | bool _ _ b => exact hR.pure (.bool b)
  | var name hline => exact hR.lookup hline name
  | function _ _ hf => exact hR.pure (.function hf)
  | unary op hline he => exact hR.evalAs heval hline he fun v v' hv => hv.sign op
  | arith op hline hl hr =>
    refine hR.bind (heval _ _ hl) fun v v' hv => hR.bind (heval _ _ hr) fun w w' hw => ?_
    exact hR.check hline (hv.arith hw op)
  | compare op hline hl hr =>
    refine hR.bind (heval _ _ hl) fun v v' hv => hR.bind (heval _ _ hr) fun w w' hw => ?_
    exact hR.check hline (hv.compare hw op)
  | call hline hcallee hargs => exact hcall hline hcallee hargs
  | index hline hbase hkey =>
    refine hR.bind (hR.evalAs heval hline hbase fun v v' hv => hv.toTable) fun i i' hi => ?_
    obtain ⟨rfl, hknown⟩ := hi
    refine hR.bind (hR.evalAs heval hline hkey fun v v' hv => hv.toKey) fun key key' hkeys => ?_
    obtain rfl : key = key' := hkeys
    exact hR.getEntry hknown key
  | table hline hentries =>
    refine hR.bind hR.newTable fun i i' hi => ?_
    obtain ⟨rfl, hknown, hfresh⟩ := hi
    refine hR.bind (hR.fill heval hline hfresh hentries) fun _ _ _ => ?_
    exact hR.pure (.table hknown)

omit hR heval in
theorem assign_of_not_isTarget {target : Expr} (h : ¬ target.IsTarget) (line : Nat) (how : Assignment)
    (value : Expr) : Run.assign eval line how target value = Run.failAt line .invalidTarget := by
  cases target with
  | var | index => exact absurd trivial h
  | _ => rfl

theorem assign {how : Assignment} {target target' value value' : Expr}
    (hline : t.lines (.ofAssign how target) line line') (htarget : target.SameTarget t.lines E target')
    (hvalue : E value value') :
    R .statement Unit (fun _ _ => True) (assign eval line how target value)
      (assign eval' line' how target' value') := by
  have hvalue := hR.weaken (heval value value' hvalue)
  cases htarget with
  | var _ _ name =>
    refine hR.bind hvalue fun v v' hv => ?_
    cases how with
    | define => exact hR.define name hv
    | reassign => exact hR.reassign hline hv
  | index hindex hbase hkey =>
    have htable := hR.evalAs heval hindex hbase fun v v' hv => hv.toTable
    refine hR.bind (hR.weaken htable) fun i i' hi => ?_
    obtain ⟨rfl, -⟩ := hi
    have hplace := hR.evalAs heval hindex hkey fun v v' hv => hv.toKey
    refine hR.bind (hR.weaken hplace) fun key key' hkeys => ?_
    obtain rfl : key = key' := hkeys
    exact hR.bind hvalue fun v v' hv => hR.store hline i' key hv
  | invalid h h' =>
    rw [assign_of_not_isTarget h, assign_of_not_isTarget h']
    exact hR.failAt hline .invalidTarget

/-- The rule for statements.  `B` relates lists of statements whose runs are related, and `I` imports. -/
theorem execRule {B : List Stmt → List Stmt → Prop} {I : String → Program → String → Program → Prop}
    {s s' : Stmt} (h : s.SameNode t.lines E B I s')
    (hrun : ∀ ss ss', B ss ss' → R .statement Flow Eq (Run.execAll exec ss) (Run.execAll exec' ss'))
    (himport : ∀ name p name' p', I name p name' p' → R .statement Flow Eq
      (inFile (some name) (Run.execAll exec p)) (inFile (some name') (Run.execAll exec' p')))
    {turns turns' : Nat}
    (hloop : ∀ {line line' condition condition' body body'}, t.lines .loop line line' →
      R .statement Bool Eq condition condition' → R .statement Flow Eq body body' →
      R .statement Flow Eq (Run.repeatWhile condition body turns)
        (Run.repeatWhile condition' body' turns')) :
    R .statement Flow Eq (execRule eval exec turns s) (execRule eval' exec' turns' s') := by
  cases h with
  | assign hline htarget hvalue =>
    exact hR.bind (hR.assign heval hline htarget hvalue) fun _ _ _ => hR.pure rfl
  | block hbody => exact hrun _ _ hbody
  | get _ _ hprogram => exact himport _ _ _ _ hprogram
  | cond hline he hyes hno =>
    -- the frame around a conditional makes it count as an expression
    apply hR.weaken
    apply hR.inFrame
    have hcondition := hR.weaken (hR.evalAs heval hline he fun v v' hv => hv.toBool)
    refine hR.bind hcondition fun b b' hb => ?_
    obtain rfl : b = b' := hb
    cases b with
    | true => exact hrun _ _ hyes
    | false =>
      cases hno with
      | none => exact hR.pure rfl
      | some hno => exact hrun _ _ hno
  | loop hline he hbody =>
    apply hR.weaken
    apply hR.inFrame
    have hcondition := hR.weaken (hR.evalAs heval hline he fun v v' hv => hv.toBool)
    exact hloop hline hcondition (hrun _ _ hbody)
  | ret hline he =>
    refine hR.bind (hR.weaken (heval _ _ he)) fun v v' hv => ?_
    exact hR.bind (hR.setResult hline hv) fun _ _ _ => hR.pure rfl
  | expr _ _ he => exact hR.bind (hR.weaken (heval _ _ he)) fun _ _ _ => hR.pure rfl

end Stepwise

end Rules

end Run

/-! ### Whole programs -/

namespace Relabeling

/-- What becomes of the file that code runs in.  The file of a function is what its literal notes, and
that of an import is its name. -/
inductive Relates (g : Relabeling Unit) : Option String → Option String → Prop
  | noted (file : Option String) : Relates g file (g.noted () file)
  | name (name : String) : Relates g (some name) (some (g.name () name))

theorem Relates.eq_of_id {file file' : Option String} (h : Relates .id file file') : file' = file := by
  cases h with
  | noted => rfl
  | name => rfl

end Relabeling

/-- What two runs are compared by, if the code of the second is the code of the first with other
positions. -/
structure Comparison where
  /-- How the positions of the code differ. -/
  relabeling : Relabeling Unit := .id
  /-- The nodes that there are. -/
  nodes : Node → Prop := fun _ => True
  /-- The tables that values can be. -/
  known : TableId → Prop := fun _ => True
  /-- The tables that literals fill. -/
  fresh : TableId → Prop := fun _ => True
  /-- How much more fuel the second run has. -/
  surplus : Nat := 0

namespace Comparison

variable (k : Comparison)

/-- Lines and functions are those of code that is made of the nodes. -/
def terms : Terms where
  lines form line line' := (∃ place, k.nodes ⟨place, line, form⟩) ∧ line' = k.relabeling.line () line
  function f f' := f' = f.relabel k.relabeling () ∧ f.Within k.nodes
  params h := by rw [h.1, Routine.params_relabel]
  known := k.known
  fresh := k.fresh

/-- The same value, but for the positions in its code if it is a function. -/
@[reducible] def Related : Value → Value → Prop := k.terms.Related

/-- If no code and no table is left out, it is the value with other positions. -/
theorem related_iff {k : Comparison} (hnodes : ∀ n, k.nodes n) (hknown : ∀ i, k.known i) {v v' : Value} :
    k.Related v v' ↔ v' = v.relabel k.relabeling () := by
  constructor
  · intro h
    cases h with
    | function hf => rw [hf.1, Value.relabel]
    | _ => rfl
  · rintro rfl
    cases v with
    | number x => exact .number x
    | text s => exact .text s
    | bool b => exact .bool b
    | null => exact .null
    | function f => exact .function ⟨rfl, fun n _ => hnodes n⟩
    | table i => exact .table (hknown i)

theorem related_iff_eq {v v' : Value} : Related {} v v' ↔ v = v' := by
  have hiff : Related {} v v' ↔ v' = v.relabel .id () := related_iff (fun _ => trivial) fun _ => trivial
  rw [hiff, v.relabel_id, eq_comm]

theorem related_rfl (v : Value) : Related {} v v := related_iff_eq.2 rfl

end Comparison

namespace Run

/-- A relation that is kept by everything that evaluation is made of. -/
structure Parametric (k : Comparison)
    (R : Part → (α : Type) → (α → α → Prop) → Run α → Run α → Prop) : Prop
    extends Stepwise k.terms R where
  outOfFuel : ∀ {part : Part} {α : Type} {A : α → α → Prop} {y : Run α},
    (k.surplus = 0 → y = outOfFuel) → R part α A outOfFuel y
  inCall : ∀ {α : Type} {A : α → α → Prop} {x y : Run α} {line line' : Nat},
    k.terms.lines .call line line' → R .statement α A x y →
      R .expression α A (inCall line x) (inCall line' y)
  inFile : ∀ {part : Part} {α : Type} {A : α → α → Prop} {x y : Run α} {file file' : Option String},
    k.relabeling.Relates file file' → R part α A x y →
      R part α A (inFile file x) (inFile file' y)

namespace Parametric

variable {k : Comparison} {R : Part → (α : Type) → (α → α → Prop) → Run α → Run α → Prop}
variable (hR : Parametric k R)

include hR

theorem execAll_of_nodes {exec exec' : Stmt → Run Flow} {place : Place} {ss : List Stmt}
    (hexec : ∀ s, (∀ n ∈ Stmt.nodes place s, k.nodes n) →
      R .statement Flow Eq (exec s) (exec' (s.relabel k.relabeling ())))
    (hss : ∀ n ∈ nodesAll place ss, k.nodes n) :
    R .statement Flow Eq (Run.execAll exec ss) (Run.execAll exec' (relabelAll k.relabeling () ss)) :=
  hR.execAll_relabelAll _ _ fun s hs => hexec s fun n hn => hss n (mem_nodesAll.2 ⟨s, hs, hn⟩)

section Step

variable {fuel : Nat}
variable (heval : ∀ place e, (∀ n ∈ Expr.nodes place e, k.nodes n) →
  R .expression Value k.Related (eval fuel e) (eval (k.surplus + fuel) (e.relabel k.relabeling ())))
variable (hexec : ∀ place s, (∀ n ∈ Stmt.nodes place s, k.nodes n) →
  R .statement Flow Eq (exec fuel s) (exec (k.surplus + fuel) (s.relabel k.relabeling ())))

include heval hexec

/-- One more unit of fuel for expressions. -/
theorem eval_succ (place : Place) (e : Expr) (he : ∀ n ∈ e.nodes place, k.nodes n) :
    R .expression Value k.Related (eval (fuel + 1) e)
      (eval (k.surplus + fuel + 1) (e.relabel k.relabeling ())) := by
  rw [eval, eval]
  have hnode : e.SameNode k.terms.lines k.terms.function
      (fun c c' => c ∈ e.parts ∧ c' = c.relabel k.relabeling ()) (e.relabel k.relabeling ()) := by
    refine e.sameNode_relabel k.relabeling () place ?_ ?_ fun c hc => ⟨hc, rfl⟩
    · exact fun h => ⟨⟨place, he _ h⟩, rfl⟩
    · rintro line ⟨tag, start, noted, params, ⟨brace, stmts⟩⟩ rfl
      simp only [Expr.nodes, List.forall_mem_cons] at he
      exact ⟨rfl, he.2⟩
  have hparts : ∀ c c', c ∈ e.parts ∧ c' = c.relabel k.relabeling () →
      R .expression Value k.Related (eval fuel c) (eval (k.surplus + fuel) c') := by
    rintro c _ ⟨hc, rfl⟩
    exact heval place c fun n hn => he n (Expr.mem_nodes_of_mem_parts hc hn)
  refine hR.evalRule hparts hnode fun hline hcallee hargs => hR.inCall hline ?_
  refine hR.callBody hparts ?_ hargs hline hcallee
  -- the body is code of the function, wherever the call stands
  rintro f _ ⟨rfl, hwithin⟩
  rw [f.file_relabel, f.stmts_relabel]
  exact hR.inFile (.noted f.file) (hR.execAll_of_nodes (hexec ⟨f.file, true⟩) hwithin)

/-- One more unit of fuel for statements. -/
theorem exec_succ (place : Place) (s : Stmt) (hs : ∀ n ∈ s.nodes place, k.nodes n) :
    R .statement Flow Eq (exec (fuel + 1) s)
      (exec (k.surplus + fuel + 1) (s.relabel k.relabeling ())) := by
  rw [exec, exec]
  have hnode : s.SameNode k.terms.lines (fun c c' => c ∈ s.exprs ∧ c' = c.relabel k.relabeling ())
      (fun ss ss' => ss ∈ s.blocks ∧ ss' = relabelAll k.relabeling () ss)
      (fun name p name' p' => (∀ n ∈ nodesAll ⟨some name, false⟩ p, k.nodes n) ∧
        name' = k.relabeling.name () name ∧ p' = relabelAll k.relabeling () p)
      (s.relabel k.relabeling ()) := by
    refine s.sameNode_relabel k.relabeling () place ?_ (fun c hc => ⟨hc, rfl⟩) (fun ss hss => ⟨hss, rfl⟩) ?_
    · exact fun h => ⟨⟨place, hs _ h⟩, rfl⟩
    · rintro line name p rfl
      simp only [Stmt.nodes, List.forall_mem_cons] at hs
      exact ⟨hs.2, rfl, rfl⟩
  refine hR.execRule ?_ hnode ?_ ?_ fun _ hcondition hbody => ?_
  · rintro c _ ⟨hc, rfl⟩
    exact heval place c fun n hn => hs n (Stmt.mem_nodes_of_mem_exprs hc hn)
  · rintro ss _ ⟨hss, rfl⟩
    exact hR.execAll_of_nodes (hexec place) fun n hn => hs n (Stmt.mem_nodes_of_mem_blocks hss hn)
  · rintro name p _ _ ⟨hp, rfl, rfl⟩
    exact hR.inFile (.name name) (hR.execAll_of_nodes (hexec ⟨some name, false⟩) hp)
  · refine hR.repeatWhile (fun more hmore => hR.outOfFuel fun hsurplus => ?_) (fun more hmore => ?_)
      hcondition hbody
    all_goals obtain rfl : more = 0 := by omega
    · rfl
    · exact hR.outOfFuel fun _ => rfl

end Step

/-- The relation holds between the runs of an expression, and between the runs of a statement. -/
theorem eval_exec (fuel : Nat) :
    (∀ place e, (∀ n ∈ Expr.nodes place e, k.nodes n) → R .expression Value k.Related (eval fuel e)
      (eval (k.surplus + fuel) (e.relabel k.relabeling ()))) ∧
    (∀ place s, (∀ n ∈ Stmt.nodes place s, k.nodes n) → R .statement Flow Eq (exec fuel s)
      (exec (k.surplus + fuel) (s.relabel k.relabeling ()))) := by
  induction fuel with
  | zero =>
    refine ⟨fun place e _ => ?_, fun place s _ => ?_⟩
    · rw [eval]
      refine hR.outOfFuel fun hsurplus => ?_
      rw [hsurplus, Nat.add_zero, eval]
    · rw [exec]
      refine hR.outOfFuel fun hsurplus => ?_
      rw [hsurplus, Nat.add_zero, exec]
  | succ fuel ih =>
    obtain ⟨heval, hexec⟩ := ih
    exact ⟨hR.eval_succ heval hexec, hR.exec_succ heval hexec⟩

/-- The relation holds between the runs of a program. -/
theorem execute (fuel : Nat) {place : Place} {p : Program} (hp : ∀ n ∈ nodesAll place p, k.nodes n) :
    R .statement Unit (fun _ _ => True) (execute fuel p)
      (execute (k.surplus + fuel) (relabelAll k.relabeling () p)) :=
  hR.bind (hR.execAll_of_nodes ((hR.eval_exec fuel).2 place) hp) fun _ _ _ => hR.pure trivial

end Parametric

end Run

end TableScript
