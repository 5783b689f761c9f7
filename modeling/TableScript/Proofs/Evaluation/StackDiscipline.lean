import TableScript.Interpreter
import TableScript.Proofs.Evaluation.Frames
import TableScript.Proofs.Evaluation.Parametric

/-!
# The discipline of the stack

Whatever a script does, and however it ends, it leaves the stack of frames as it found it.  An
expression may overwrite values of names that are bound, and nothing else; a statement may also bind
names in the current frame and set the result of its call.  The depth of calls, the running file and
the limits come back to what they were.

`Run.Keeps top x` says this of one run: started with at least one frame open, it ends in a change
that `top` allows, be it with a value, with a failure or for lack of fuel.  A frame of its own turns
`Frame.Grown` into `Frame.Kept` (`Keeps.inFrame`, `Keeps.inCall`).  What evaluation is made of keeps the
stack in this sense, and so does all code (`parametric_disciplined`).

Between two runs of an interpreter only the root is open (`Interpreter.atRest_perform`).
-/

namespace TableScript

/-- The scopes changed as `top` allows, and nothing about calls, files and limits changed. -/
structure Machine.Change (top : Frame → Frame → Prop) (m m' : Machine) : Prop where
  scopes : m.scopes.Change top m'.scopes
  limits : m'.limits = m.limits
  callDepth : m'.callDepth = m.callDepth
  file : m'.file = m.file

namespace Machine.Change

variable {top top' : Frame → Frame → Prop} {m m' m'' : Machine}

theorem refl [IsPreorder Frame top] (m : Machine) : m.Change top m :=
  ⟨.refl m.scopes, rfl, rfl, rfl⟩

theorem trans [IsPreorder Frame top] (h : m.Change top m') (h' : m'.Change top m'') :
    m.Change top m'' where
  scopes := h.scopes.trans h'.scopes
  limits := h'.limits.trans h.limits
  callDepth := h'.callDepth.trans h.callDepth
  file := h'.file.trans h.file

theorem depth_pos (h : m.Change top m') (hdepth : 0 < m.scopes.depth) : 0 < m'.scopes.depth :=
  h.scopes.depth ▸ hdepth

end Machine.Change

/-- What the current frame may go through. -/
def Part.top : Part → Frame → Frame → Prop
  | .expression => Frame.Kept
  | .statement => Frame.Grown

instance (part : Part) : IsPreorder Frame part.top := by
  cases part with
  | expression => exact inferInstanceAs (IsPreorder Frame Frame.Kept)
  | statement => exact inferInstanceAs (IsPreorder Frame Frame.Grown)

namespace Run

variable {α β : Type} {top : Frame → Frame → Prop}

/-- Started with a frame open, the run changes the machine only as `top` allows. -/
def Keeps (top : Frame → Frame → Prop) (x : Run α) : Prop :=
  ∀ m : Machine, 0 < m.scopes.depth → m.Change top (x m).2

/-- The same, of a run whose end is known. -/
theorem Keeps.change {x : Run α} {r : Except Stop α} {m m' : Machine} (hx : Keeps top x)
    (h : x m = (r, m')) (hm : 0 < m.scopes.depth) : m.Change top m' := by
  have hchange := hx m hm
  rwa [h] at hchange

theorem Keeps.mono {top' : Frame → Frame → Prop} {x : Run α} (hx : Keeps top x)
    (hle : ∀ {f f'}, top f f' → top' f f') : Keeps top' x := by
  intro m hm
  obtain ⟨hscopes, hlimits, hcalls, hfile⟩ := hx m hm
  exact ⟨hscopes.mono hle, hlimits, hcalls, hfile⟩

/-- What keeps all frames may stand wherever the current frame may grow. -/
theorem Keeps.grown {x : Run α} (hx : Keeps Frame.Kept x) : Keeps Frame.Grown x :=
  hx.mono Frame.Kept.grown

/-! ### Sequencing -/

section Sequencing

variable [IsPreorder Frame top]

theorem keeps_of_same {x : Run α} (h : ∀ m, (x m).2 = m) : Keeps top x := by
  intro m _
  rw [h m]
  exact .refl m

theorem keeps_pure (a : α) : Keeps top (pure a : Run α) := keeps_of_same fun _ => rfl

theorem keeps_outOfFuel : Keeps top (outOfFuel : Run α) := keeps_of_same fun _ => rfl

theorem keeps_failAt (line : Nat) (e : RuntimeError) : Keeps top (failAt line e : Run α) :=
  keeps_of_same fun _ => rfl

theorem keeps_check (line : Nat) (r : Except RuntimeError α) : Keeps top (check line r) := by
  cases r with
  | ok a => exact keeps_pure a
  | error e => exact keeps_failAt line e

theorem Keeps.bind_of_ok {x : Run α} {f : α → Run β} (hx : Keeps top x)
    (hf : ∀ m a, (x m).1 = .ok a → Keeps top (f a)) : Keeps top (x >>= f) := by
  intro m hm
  have hfirst := hx m hm
  rcases hxm : x m with ⟨e | a, m₁⟩
  · -- an early exit leaves the machine as `x` left it
    rw [hxm] at hfirst
    rw [Action.bind_of_error hxm]
    exact hfirst
  · rw [hxm] at hfirst
    rw [Action.bind_of_ok hxm]
    exact hfirst.trans (hf m a (by rw [hxm]) m₁ (hfirst.depth_pos hm))

theorem Keeps.bind {x : Run α} {f : α → Run β} (hx : Keeps top x) (hf : ∀ a, Keeps top (f a)) :
    Keeps top (x >>= f) := hx.bind_of_ok fun _ a _ => hf a

end Sequencing

/-! ### Names and tables -/

theorem keeps_lookup (line : Nat) (name : String) : Keeps Frame.Kept (lookup line name) :=
  (keeps_of_same fun _ => rfl).bind fun found => by
    cases found with
    | some v => exact keeps_pure v
    | none => exact keeps_failAt line _

/-- Changing the scopes and saying whether it worked, or failing if it did not. -/
theorem keeps_update_scopes {f : Scopes → Bool × Scopes} {line : Nat} {e : RuntimeError}
    [IsPreorder Frame top] (hf : ∀ s : Scopes, s.Change top (f s).2) :
    Keeps top (do
      let found ← Action.update fun m => ((f m.scopes).1, { m with scopes := (f m.scopes).2 })
      if found then pure () else failAt line e : Run Unit) := by
  refine Keeps.bind (fun m _ => ⟨hf m.scopes, rfl, rfl, rfl⟩) fun found => ?_
  cases found
  · exact keeps_failAt line e
  · exact keeps_pure ()

theorem keeps_define (name : String) (v : Value) : Keeps Frame.Grown (define name v) :=
  fun m _ => ⟨Scopes.change_define m.scopes name v, rfl, rfl, rfl⟩

theorem keeps_reassign (line : Nat) (name : String) (v : Value) :
    Keeps Frame.Kept (reassign line name v) :=
  keeps_update_scopes fun s => s.change_reassign name v

theorem keeps_setResult (line : Nat) (v : Value) : Keeps Frame.Grown (setResult line v) :=
  keeps_update_scopes fun s => s.change_setResult v

theorem keeps_newTable : Keeps Frame.Kept newTable := fun m _ => ⟨.refl m.scopes, rfl, rfl, rfl⟩

theorem keeps_setEntry (t : TableId) (k : Key) (v : Value) : Keeps Frame.Kept (setEntry t k v) :=
  fun m _ => ⟨.refl m.scopes, rfl, rfl, rfl⟩

theorem keeps_getEntry (t : TableId) (k : Key) : Keeps Frame.Kept (getEntry t k) :=
  keeps_of_same fun _ => rfl

/-! ### Frames, calls and files -/

/-- What runs in a frame of its own leaves no trace in the frames outside, since the frame is closed
again in every case. -/
theorem Keeps.inFrame {x : Run α} (hx : Keeps Frame.Grown x) (kind : FrameKind) :
    Keeps Frame.Kept (inFrame kind x) := by
  intro m hm
  have hpos : 0 < (enterFrame kind m).scopes.depth := by
    simp [enterFrame, Scopes.push, Scopes.depth]
  obtain ⟨hscopes, hlimits, hcalls, hfile⟩ := hx (enterFrame kind m) hpos
  exact ⟨hscopes.closed hm, hlimits, hcalls, hfile⟩

theorem Keeps.inCall {x : Run α} (hx : Keeps Frame.Grown x) (line : Nat) :
    Keeps Frame.Kept (inCall line x) := by
  intro m hm
  rw [inCall_apply]
  by_cases hlimit : m.limits.callDepth ≤ m.callDepth
  · rw [if_pos hlimit]
    exact .refl m
  · rw [if_neg hlimit]
    have hpos : 0 < (enterCall m).scopes.depth := by
      simp [enterCall, enterFrame, Scopes.push, Scopes.depth]
    obtain ⟨hscopes, hlimits, hcalls, hfile⟩ := hx (enterCall m) hpos
    refine ⟨hscopes.closed hm, hlimits, ?_, hfile⟩
    -- the call was counted on the way in, so it can be taken off again
    show (x (enterCall m)).2.callDepth - 1 = m.callDepth
    rw [hcalls]
    exact Nat.add_sub_cancel m.callDepth 1

theorem Keeps.mapError {x : Run α} (hx : Keeps top x) (f : Stop → Stop) :
    Keeps top (Action.mapError f x) := by
  intro m hm
  have hchange := hx m hm
  rcases hxm : x m with ⟨e | a, m'⟩ <;> rw [hxm] at hchange <;>
    simpa [Action.mapError, hxm] using hchange

theorem Keeps.inFile {x : Run α} (hx : Keeps top x) (file : Option String) :
    Keeps top (inFile file x) := by
  intro m hm
  rw [inFile_apply]
  by_cases hsame : m.file = file
  · rw [if_pos hsame]
    exact hx m hm
  · rw [if_neg hsame]
    cases file with
    | some name =>
      have hmarked := hx.mapError (Stop.inFile name)
      obtain ⟨hscopes, hlimits, hcalls, -⟩ := hmarked { m with file := name } hm
      exact ⟨hscopes, hlimits, hcalls, rfl⟩
    | none =>
      obtain ⟨hscopes, hlimits, hcalls, -⟩ := hx { m with file := none } hm
      exact ⟨hscopes, hlimits, hcalls, rfl⟩

/-! ### Code -/

/-- The run keeps the stack as a piece of code of that kind does, and its value, if there is one, is related
to some value. -/
structure Disciplined (part : Part) (α : Type) (A : α → α → Prop) (x _y : Run α) : Prop where
  keeps : Keeps part.top x
  related : ∀ m a, (x m).1 = .ok a → ∃ a', A a a'

section Disciplined

variable {part : Part} {A : α → α → Prop} {x y : Run α}

theorem disciplined_of_keeps (hx : Keeps part.top x) (hA : ∀ a, A a a) : Disciplined part α A x y :=
  ⟨hx, fun _ a _ => ⟨a, hA a⟩⟩

theorem Disciplined.bind {B : β → β → Prop} {f f' : α → Run β} (hx : Disciplined part α A x y)
    (hf : ∀ a a', A a a' → Disciplined part β B (f a) (f' a')) :
    Disciplined part β B (x >>= f) (y >>= f') := by
  refine ⟨hx.keeps.bind_of_ok fun m a h => ?_, fun m b hb => ?_⟩
  · obtain ⟨a', ha⟩ := hx.related m a h
    exact (hf a a' ha).keeps
  · obtain ⟨a, m₁, hxm, hrest⟩ := Action.bind_eq_ok_iff.1 (Prod.ext hb rfl)
    obtain ⟨a', ha⟩ := hx.related m a (by rw [hxm])
    exact (hf a a' ha).related m₁ b (by rw [hrest])

/-- A value of a run in a frame, a call or a file of its own is a value of the run. -/
theorem Disciplined.inside {x' y' : Run α} {part' : Part} (hx : Disciplined part α A x y)
    (hkeeps : Keeps part'.top x') (hvalue : ∀ m a, (x' m).1 = .ok a → ∃ m₁, (x m₁).1 = .ok a) :
    Disciplined part' α A x' y' := by
  refine ⟨hkeeps, fun m a ha => ?_⟩
  obtain ⟨m₁, ha⟩ := hvalue m a ha
  exact hx.related m₁ a ha

theorem ok_of_inCall {line : Nat} {m : Machine} {a : α} (h : (inCall line x m).1 = .ok a) :
    ∃ m₁, (x m₁).1 = .ok a := by
  rw [inCall_apply] at h
  split at h
  · cases h
  · exact ⟨_, h⟩

end Disciplined

/-- Keeping the stack is a relation that evaluation keeps. -/
theorem parametric_disciplined : Parametric {} Disciplined where
  weaken h := ⟨h.keeps.grown, h.related⟩
  pure {_ _ _ a a'} ha := ⟨keeps_pure a, fun _ _ h => by cases h; exact ⟨a', ha⟩⟩
  bind := Disciplined.bind
  outOfFuel _ := ⟨keeps_outOfFuel, fun _ _ => nofun⟩
  failAt {_ _ _ _ line _} _ e := ⟨keeps_failAt line e, fun _ _ => nofun⟩
  lookup {line _} _ name := disciplined_of_keeps (keeps_lookup line name) Comparison.related_rfl
  define name v _ _ := disciplined_of_keeps (keeps_define name v) fun _ => trivial
  reassign {line _ name v _} _ _ := disciplined_of_keeps (keeps_reassign line name v).grown fun _ => trivial
  setResult {line _ v _} _ _ := disciplined_of_keeps (keeps_setResult line v) fun _ => trivial
  result := disciplined_of_keeps (keeps_of_same fun _ => rfl) Comparison.related_rfl
  newTable := disciplined_of_keeps keeps_newTable fun _ => ⟨rfl, trivial, trivial⟩
  getEntry {i} _ key := disciplined_of_keeps (keeps_getEntry i key) Comparison.related_rfl
  setFresh {i} _ key v _ _ := disciplined_of_keeps (keeps_setEntry i key v) fun _ => trivial
  store _ i key v _ _ := disciplined_of_keeps (keeps_setEntry i key v).grown fun _ => trivial
  inFrame hx := hx.inside (hx.keeps.inFrame .block) fun _ _ h => ⟨_, h⟩
  inCall hline hx := hx.inside (hx.keeps.inCall _) fun _ _ => ok_of_inCall
  inFile {_ _ _ _ _ file _} _ hx := hx.inside (hx.keeps.inFile file) fun _ _ h => ⟨_, ok_of_inFile h⟩

section Code

variable (fuel : Nat)

theorem disciplined_eval (e : Expr) :
    Disciplined .expression Value (Comparison.Related {}) (eval fuel e) (eval fuel e) := by
  have h := (parametric_disciplined.eval_exec fuel).1 ⟨none, false⟩ e fun _ _ => trivial
  exact ⟨h.keeps, h.related⟩

theorem disciplined_exec (s : Stmt) :
    Disciplined .statement Flow Eq (exec fuel s) (exec fuel s) := by
  have h := (parametric_disciplined.eval_exec fuel).2 ⟨none, false⟩ s fun _ _ => trivial
  exact ⟨h.keeps, h.related⟩

/-- Expressions keep all frames, and statements let only the current frame grow. -/
theorem keeps_eval_exec :
    (∀ e, Keeps Frame.Kept (eval fuel e)) ∧ (∀ s, Keeps Frame.Grown (exec fuel s)) :=
  ⟨fun e => (disciplined_eval fuel e).keeps, fun s => (disciplined_exec fuel s).keeps⟩

theorem keeps_evalAs (line : Nat) (e : Expr) (as : Value → Except RuntimeError α) :
    Keeps Frame.Kept (do let v ← eval fuel e; check line (as v)) :=
  (disciplined_eval fuel e).keeps.bind fun v => keeps_check line (as v)

theorem keeps_evalBool (line : Nat) (e : Expr) : Keeps Frame.Kept (evalBool (eval fuel) line e) :=
  keeps_evalAs fuel line e Value.toBool

theorem keeps_evalAll (es : List Expr) : Keeps Frame.Kept (evalAll (eval fuel) es) := by
  have heval : ∀ e e', e = e' →
      Disciplined .expression Value (Comparison.Related {}) (eval fuel e) (eval fuel e') := by
    rintro e _ rfl
    exact disciplined_eval fuel e
  exact (parametric_disciplined.evalAll heval (List.forall₂_refl es)).keeps

theorem disciplined_execAll (ss : List Stmt) :
    Disciplined .statement Flow Eq (execAll (exec fuel) ss) (execAll (exec fuel) ss) :=
  parametric_disciplined.execAll (List.forall₂_same.2 fun s _ => disciplined_exec fuel s)

theorem keeps_execAll (ss : List Stmt) : Keeps Frame.Grown (execAll (exec fuel) ss) :=
  (disciplined_execAll fuel ss).keeps

theorem keeps_repeatWhile (line : Nat) (e : Expr) (ss : List Stmt) (turns : Nat) :
    Keeps Frame.Grown (repeatWhile (evalBool (eval fuel) line e) (execAll (exec fuel) ss) turns) := by
  have hcondition : Disciplined .statement Bool Eq (evalBool (eval fuel) line e)
      (evalBool (eval fuel) line e) := disciplined_of_keeps (keeps_evalBool fuel line e).grown fun _ => rfl
  have hfuel : Disciplined .statement Flow Eq outOfFuel outOfFuel :=
    disciplined_of_keeps keeps_outOfFuel fun _ => rfl
  have hbody := disciplined_execAll fuel ss
  exact (parametric_disciplined.repeatWhile_same hfuel hcondition hbody turns).keeps

end Code

theorem keeps_execute (fuel : Nat) (program : Program) : Keeps Frame.Grown (execute fuel program) :=
  (keeps_execAll fuel program).bind fun _ => keeps_pure ()

end Run

/-! ### Between two runs of an interpreter -/

namespace Interpreter

/-- What a host can ask of an interpreter. -/
inductive Request where
  | run (source : String)
  | runFile (name : String)

/-- Carries out a request. -/
def Request.perform (fuel : Nat) : Request → Action Interpreter Stop Unit
  | .run source => Interpreter.run fuel source
  | .runFile name => Interpreter.runFile fuel name

/-- The interpreter after requests, each with fuel of its own.  One that fails does not stop those
behind it. -/
def after (i : Interpreter) (requests : List (Nat × Request)) : Interpreter :=
  requests.foldl (fun i request => (request.2.perform request.1 i).2) i

/-- Only the root is open, no call is active, and no file is running. -/
structure AtRest (i : Interpreter) : Prop where
  depth : i.machine.scopes.depth = 1
  callDepth : i.machine.callDepth = 0
  file : i.machine.file = none

/-- Reading a script and running something on the machine leaves an interpreter at rest, if what is
run keeps the machine in order. -/
theorem AtRest.accept_bind {i : Interpreter} (hi : i.AtRest)
    (read : Interpreter → Except Error Program) {x : Program → Run Unit}
    (hx : ∀ program, Run.Keeps Frame.Grown (x program)) :
    ((accept read >>= fun program => onMachine (x program)) i).2.AtRest := by
  rw [Action.bind_apply]
  rcases hread : read i with e | program
  · simpa [accept, hread] using hi
  · have hchange := hx (Program.label program i.nextTag).1 i.machine (by simp [hi.depth])
    have hrest : ∀ m, i.machine.Change Frame.Grown m →
        AtRest { i with machine := m, nextTag := (Program.label program i.nextTag).2 } :=
      fun m h => ⟨h.scopes.depth.trans hi.depth, h.callDepth.trans hi.callDepth,
        h.file.trans hi.file⟩
    simpa [accept, hread, onMachine] using hrest _ hchange

theorem atRest_perform {i : Interpreter} (hi : i.AtRest) (fuel : Nat) (request : Request) :
    (request.perform fuel i).2.AtRest := by
  cases request with
  | run source => exact hi.accept_bind _ fun program => Run.keeps_execute fuel program
  | runFile name =>
    exact hi.accept_bind _ fun program => (Run.keeps_execute fuel program).inFile (some name)

theorem atRest_after {i : Interpreter} (hi : i.AtRest) (requests : List (Nat × Request)) :
    (i.after requests).AtRest := by
  induction requests generalizing i with
  | nil => exact hi
  | cons request requests ih => exact ih (atRest_perform hi request.1 request.2)

end Interpreter

/-! ### The discipline -/

/-- **Stack discipline.**  Whatever comes of evaluating an expression or carrying out a statement, a
value, an error or a lack of fuel, the same frames are open as before, with the same parents and
kinds, and the depth of calls, the running file and the limits are the same.  An expression
leaves the names and the results of all frames alone; a statement removes no name and touches only
the current frame.  So after any requests to a new interpreter only the root is open. -/
theorem stack_discipline :
    (∀ (fuel : Nat) (m : Machine) (e : Expr), m.scopes.Built →
      m.Change Frame.Kept (Run.eval fuel e m).2) ∧
    (∀ (fuel : Nat) (m : Machine) (s : Stmt), m.scopes.Built →
      m.Change Frame.Grown (Run.exec fuel s m).2) ∧
    (∀ (limits : Limits) (load : Loader) (requests : List (Nat × Interpreter.Request)),
      ((Interpreter.new limits load).after requests).AtRest) := by
  refine ⟨fun fuel m e hm => ?_, fun fuel m s hm => ?_, fun limits load requests => ?_⟩
  · exact (Run.keeps_eval_exec fuel).1 e m hm.depth_pos
  · exact (Run.keeps_eval_exec fuel).2 s m hm.depth_pos
  · exact Interpreter.atRest_after ⟨rfl, rfl, rfl⟩ requests

/-- A frame inside of a root that binds `x`. -/
def innerScopes : Scopes := (Scopes.fresh.define "x" .null).push .block

/-- A call that overwrites `x` from inside of its own frame and then fails. -/
def failingCall : Expr :=
  .call 1 (.function 1 (.mk 1 1 none [] (.mk 1
    [.assign 1 .reassign (.var 1 "x") (.bool 1 true), .ret 1 (.var 1 "y")]))) []

theorem stack_discipline_failingCall :
    innerScopes.Built ∧
    (Run.eval 4 failingCall { scopes := innerScopes }).1 =
      .error (.failed (.runtime 1 (.undefinedName "y"))) ∧
    Machine.Change Frame.Kept { scopes := innerScopes }
      (Run.eval 4 failingCall { scopes := innerScopes }).2 ∧
    Machine.Change Frame.Grown { scopes := innerScopes }
      (Run.exec 5 (.expr 1 failingCall) { scopes := innerScopes }).2 := by
  have hbuilt : innerScopes.Built := .push _ (.define _ _ .fresh)
  have hfails : (Run.eval 4 failingCall { scopes := innerScopes }).1 =
      .error (.failed (.runtime 1 (.undefinedName "y"))) := by with_unfolding_all rfl
  exact ⟨hbuilt, hfails, stack_discipline.1 4 { scopes := innerScopes } failingCall hbuilt,
    stack_discipline.2.1 5 { scopes := innerScopes } (.expr 1 failingCall) hbuilt⟩

end TableScript
