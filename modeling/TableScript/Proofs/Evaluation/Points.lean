import TableScript.Proofs.Evaluation.Following
import TableScript.Proofs.Evaluation.StackDiscipline

/-!
# The points of a run

A run passes many machines that its end does not show: one for each expression and each statement that it
begins with, in a call, in an argument, in the turn of a loop that never ends.  `Watch` is evaluation on a
machine with a journal, by the same rules, in which each of them is noted before anything else is done with
it.  `execute_erase` says that a program does the same on a machine with a journal as without one, so that
the points in the journal are those of the run.

What holds at all points is shown by `forall_mem_begun`: it is enough that it holds where the run starts,
that it is kept by every change that code may make to the machine (`Machine.Change`), and that it is kept
where a frame is opened.  Both are said by one relation between the runs with and without a journal, which the
rules keep (`stepwise_watches`).
-/

namespace TableScript

/-- A piece of code that a run can begin with. -/
inductive Code where
  | expr (e : Expr)
  | stmt (s : Stmt)

/-- A piece of code and the machine on which a run begins with it. -/
structure Point where
  code : Code
  machine : Machine

/-- A machine and the points that were passed, the last one first. -/
structure Watched where
  machine : Machine
  points : List Point := []

instance : HasMachine Watched where
  machine w := w.machine
  withMachine w m := { w with machine := m }

/-- A run on a machine with a journal. -/
abbrev Watch := RunOn Watched

namespace Watch

/-- Notes that the run begins with a piece of code. -/
def note (code : Code) : Watch Unit :=
  Action.modify fun w => { w with points := ⟨code, w.machine⟩ :: w.points }

mutual

/-- The value of an expression, noted before it is evaluated. -/
def eval : Nat → Expr → Watch Value
  | 0, e => do
    note (.expr e)
    Run.outOfFuel
  | fuel + 1, e => do
    note (.expr e)
    Run.evalRule (eval fuel) (exec fuel) e

/-- Carries out a statement, noted before it is carried out. -/
def exec : Nat → Stmt → Watch Flow
  | 0, s => do
    note (.stmt s)
    Run.outOfFuel
  | fuel + 1, s => do
    note (.stmt s)
    Run.execRule (eval fuel) (exec fuel) fuel s

end

/-- Carries out the statements of a program. -/
def execute (fuel : Nat) (program : Program) : Watch Unit := do
  let _ ← Run.execAll (exec fuel) program

end Watch

/-- The points that a program passes, the last one first. -/
def Program.begun (fuel : Nat) (p : Program) (m : Machine) : List Point :=
  (Watch.execute fuel p { machine := m }).2.points

/-! ### What holds at all points -/

/-- A property of machines that is kept wherever a run can come to. -/
structure Stable (P : Machine → Prop) : Prop where
  depth_pos : ∀ {m}, P m → 0 < m.scopes.depth
  change : ∀ {m m' : Machine}, P m → m.Change Frame.Grown m' → P m'
  file : ∀ {m} (file : Option String), P m → P { m with file }
  frame : ∀ {m}, P m → P (Run.enterFrame .block m)
  call : ∀ {m}, P m → m.callDepth < m.limits.callDepth → P (Run.enterCall m)

/-- A frame is open. -/
theorem stable_depth_pos : Stable fun m => 0 < m.scopes.depth where
  depth_pos h := h
  change h hchange := hchange.depth_pos h
  file _ h := h
  frame _ := by simp [Run.enterFrame, Scopes.push, Scopes.depth]
  call _ _ := by simp [Run.enterCall, Run.enterFrame, Scopes.push, Scopes.depth]

/-- Where a run with a journal got to from `w`, and where it got to without: the same value or the same stop
on the same machine, and if it started with `P`, it only passed points with `P`. -/
structure Recorded {α : Type} (P : Machine → Prop) (A : α → α → Prop) (w : Watched)
    (left : Except Stop α × Watched) (right : Except Stop α × Machine) : Prop where
  machine : left.2.machine = right.2
  concur : Run.Concur Eq A left.1 right.1
  points : P w.machine →
    ∃ begun, left.2.points = begun ++ w.points ∧ ∀ p ∈ begun, P p.machine

/-- `x` is the run `y` with a journal. -/
structure Watches (P : Machine → Prop) (_part : Part) (α : Type) (A : α → α → Prop) (x : Watch α)
    (y : Run α) : Prop where
  recorded : ∀ w, Recorded P A w (x w) (y w.machine)
  keeps : Run.Keeps Frame.Grown y

namespace Watches

variable {P : Machine → Prop} {part : Part} {α β : Type} {A : α → α → Prop} {B : β → β → Prop}
variable {x : Watch α} {y : Run α}

/-! ### Basic steps -/

/-- A run that passes no point. -/
theorem of_keeps (hkeeps : Run.Keeps Frame.Grown y)
    (hrun : ∀ w, x w = ((y w.machine).1, { w with machine := (y w.machine).2 }))
    (hA : ∀ m a, (y m).1 = .ok a → A a a) : Watches P part α A x y := by
  refine ⟨fun w => ?_, hkeeps⟩
  rw [hrun w]
  refine ⟨rfl, ?_, fun _ => ⟨[], rfl, by simp⟩⟩
  rcases hr : (y w.machine).1 with s | a
  · exact .stop rfl
  · exact .value (hA _ a hr)

theorem of_step (hkeeps : Run.Keeps Frame.Grown y) (hA : ∀ a, A a a) :
    Watches P part α A (Run.step y) (Run.step y) :=
  of_keeps hkeeps (fun _ => rfl) fun _ a _ => hA a

theorem pure {a a' : α} (ha : A a a') : Watches P part α A (Pure.pure a) (Pure.pure a') where
  recorded _ := ⟨rfl, .value ha, fun _ => ⟨[], rfl, by simp⟩⟩
  keeps := Run.keeps_pure a'

theorem outOfFuel : Watches P part α A Run.outOfFuel Run.outOfFuel :=
  of_keeps Run.keeps_outOfFuel (fun _ => rfl) fun _ _ => nofun

theorem failAt (line : Nat) (e : RuntimeError) :
    Watches P part α A (Run.failAt line e) (Run.failAt line e) :=
  of_keeps (Run.keeps_failAt line e) (fun _ => rfl) fun _ _ => nofun

/-- The machine of a note is the one that the run begins on. -/
theorem note_bind (code : Code) (hx : Watches P part α A x y) :
    Watches P part α A (do Watch.note code; x) y := by
  refine ⟨fun w => ?_, hx.keeps⟩
  obtain ⟨hmachine, hconcur, hpoints⟩ :=
    hx.recorded { w with points := ⟨code, w.machine⟩ :: w.points }
  refine ⟨hmachine, hconcur, fun hw => ?_⟩
  obtain ⟨begun, hbegun, hpoints⟩ := hpoints hw
  refine ⟨begun ++ [⟨code, w.machine⟩], ?_, fun p hp => ?_⟩
  · rw [List.append_assoc]
    exact hbegun
  · rcases List.mem_append.1 hp with hp | hp
    · exact hpoints p hp
    · obtain rfl := List.mem_singleton.1 hp
      exact hw

/-! ### Frames, calls and files -/

/-- A change of the machine before and after a run goes on under the journal. -/
theorem between (hx : Watches P part α A x y) {enter leave : Machine → Machine} {w : Watched}
    (henter : P w.machine → P (enter w.machine)) :
    Recorded P A w (Action.between (HasMachine.change enter) (HasMachine.change leave) x w)
      (Action.between enter leave y w.machine) := by
  obtain ⟨hmachine, hconcur, hpoints⟩ := hx.recorded (HasMachine.change enter w)
  exact ⟨congrArg leave hmachine, hconcur, fun hw => hpoints (henter hw)⟩

theorem mapError (hx : Watches P part α A x y) (f : Stop → Stop) :
    Watches P part α A (Action.mapError f x) (Action.mapError f y) := by
  refine ⟨fun w => ?_, hx.keeps.mapError f⟩
  rw [Action.mapError_apply, Action.mapError_apply]
  obtain ⟨hmachine, hconcur, hpoints⟩ := hx.recorded w
  exact ⟨hmachine, hconcur.mapError fun _ _ h => congrArg f h, hpoints⟩

section Stable

variable (hP : Stable P)

include hP

theorem inFrame (hx : Watches P .statement α A x y) :
    Watches P .expression α A (Run.inFrame .block x) (Run.inFrame .block y) where
  recorded _ := hx.between hP.frame
  keeps := (hx.keeps.inFrame .block).grown

theorem inCall (hx : Watches P .statement α A x y) (line : Nat) :
    Watches P .expression α A (Run.inCall line x) (Run.inCall line y) := by
  refine ⟨fun w => ?_, (hx.keeps.inCall line).grown⟩
  rw [Run.inCall_apply]
  by_cases hlimit : w.machine.limits.callDepth ≤ w.machine.callDepth
  · let e := RuntimeError.callDepthExceeded w.machine.limits.callDepth
    have hfails : Run.inCall line x w = Run.failAt line e w := if_pos hlimit
    have hrecorded : Watches P .expression α A (Run.failAt line e) (Run.failAt line e) := failAt line e
    rw [hfails, if_pos hlimit]
    exact hrecorded.recorded w
  · have hruns : Run.inCall line x w =
        Action.between (HasMachine.change Run.enterCall) (HasMachine.change Run.leaveCall) x w :=
      if_neg hlimit
    rw [hruns, if_neg hlimit]
    exact hx.between fun hw => hP.call hw (Nat.lt_of_not_le hlimit)

theorem inFile (hx : Watches P part α A x y) (file : Option String) :
    Watches P part α A (Run.inFile file x) (Run.inFile file y) := by
  refine ⟨fun w => ?_, hx.keeps.inFile file⟩
  rw [Run.inFile_apply]
  by_cases hsame : w.machine.file = file
  · have hrun : Run.inFile file x w = x w := if_pos hsame
    rw [hrun, if_pos hsame]
    exact hx.recorded w
  · rw [if_neg hsame]
    let enter : Watched → Watched := HasMachine.change fun m => { m with file }
    let leave : Watched → Watched := HasMachine.change fun m => { m with file := w.machine.file }
    cases file with
    | none =>
      have hrun : Run.inFile none x w = Action.between enter leave x w := if_neg hsame
      rw [hrun]
      exact hx.between (hP.file none)
    | some name =>
      have hrun : Run.inFile (some name) x w =
        Action.between enter leave (Action.mapError (Stop.inFile name) x) w := if_neg hsame
      rw [hrun]
      exact (hx.mapError (Stop.inFile name)).between (hP.file (some name))

/-! ### Sequencing -/

/-- What is done after a run comes to further points. -/
theorem points_bind {f : α → Watch β} {g : α → Run β} (hx : Watches P part α A x y)
    (hf : ∀ a a', A a a' → Watches P part β B (f a) (g a')) {w : Watched} (hw : P w.machine) :
    ∃ later, ((x >>= f) w).2.points = later ++ (x w).2.points ∧ ∀ p ∈ later, P p.machine := by
  obtain ⟨hmachine, hconcur, -⟩ := hx.recorded w
  -- where a run ends is a place as good as where it started
  have hend : P (x w).2.machine := by
    rw [hmachine]
    exact hP.change hw (hx.keeps w.machine (hP.depth_pos hw))
  generalize (y w.machine).1 = r at hconcur
  rcases hxw : x w with ⟨e | a, w'⟩
  · rw [Action.bind_of_error hxw]
    exact ⟨[], rfl, by simp⟩
  · rw [hxw] at hend hconcur
    rw [Action.bind_of_ok hxw]
    cases hconcur with
    | value ha => exact ((hf _ _ ha).recorded w').points hend

theorem bind {f : α → Watch β} {g : α → Run β} (hx : Watches P part α A x y)
    (hf : ∀ a a', A a a' → Watches P part β B (f a) (g a')) :
    Watches P part β B (x >>= f) (y >>= g) := by
  refine ⟨fun w => ?_, hx.keeps.bind_of_ok fun m a' ha' => ?_⟩
  · have hpoints : P w.machine → ∃ begun, ((x >>= f) w).2.points = begun ++ w.points ∧
        ∀ p ∈ begun, P p.machine := by
      intro hw
      obtain ⟨first, hfirst, hpoints⟩ := (hx.recorded w).points hw
      obtain ⟨later, hlater, hpoints'⟩ := hx.points_bind hP hf hw
      refine ⟨later ++ first, ?_, fun p hp => ?_⟩
      · rw [hlater, hfirst, List.append_assoc]
      · exact (List.mem_append.1 hp).elim (hpoints' p) (hpoints p)
    obtain ⟨hmachine, hconcur, -⟩ := hx.recorded w
    rcases hxw : x w with ⟨r, w'⟩
    rcases hym : y w.machine with ⟨r', m'⟩
    rw [hxw, hym] at hmachine hconcur
    obtain rfl : w'.machine = m' := hmachine
    cases hconcur with
    | value ha =>
      rw [Action.bind_of_ok hxw] at hpoints ⊢
      rw [Action.bind_of_ok hym]
      obtain ⟨hmachine, hconcur, -⟩ := (hf _ _ ha).recorded w'
      exact ⟨hmachine, hconcur, hpoints⟩
    | stop hs =>
      rw [Action.bind_of_error hxw] at hpoints ⊢
      rw [Action.bind_of_error hym]
      exact ⟨rfl, .stop hs, hpoints⟩
  · -- a value of the run without a journal is one of the run with a journal
    have hconcur := (hx.recorded { machine := m }).concur
    rw [ha'] at hconcur
    generalize (x { machine := m }).1 = r at hconcur
    cases hconcur with
    | value ha => exact (hf _ _ ha).keeps

/-! ### Code -/

/-- Watching is kept by the rules. -/
theorem stepwise_watches : Run.Stepwise (Comparison.terms {}) (Watches P) where
  weaken h := ⟨h.recorded, h.keeps⟩
  pure := Watches.pure
  bind := Watches.bind hP
  failAt hline e := by
    obtain ⟨-, rfl⟩ := hline
    exact Watches.failAt _ e
  lookup hline name := by
    obtain ⟨-, rfl⟩ := hline
    exact of_step (Run.keeps_lookup _ name).grown Comparison.related_rfl
  define name _ _ hv := by
    obtain rfl := Comparison.related_iff_eq.1 hv
    exact of_step (Run.keeps_define name _) fun _ => trivial
  reassign hline hv := by
    obtain ⟨-, rfl⟩ := hline
    obtain rfl := Comparison.related_iff_eq.1 hv
    exact of_step (Run.keeps_reassign _ _ _).grown fun _ => trivial
  setResult hline hv := by
    obtain ⟨-, rfl⟩ := hline
    obtain rfl := Comparison.related_iff_eq.1 hv
    exact of_step (Run.keeps_setResult _ _) fun _ => trivial
  result := of_step (Run.keeps_of_same fun _ => rfl) Comparison.related_rfl
  newTable := of_step Run.keeps_newTable.grown fun _ => ⟨rfl, trivial, trivial⟩
  getEntry {i} _ key := of_step (Run.keeps_getEntry i key).grown Comparison.related_rfl
  setFresh {i} _ key _ _ hv := by
    obtain rfl := Comparison.related_iff_eq.1 hv
    exact of_step (Run.keeps_setEntry i key _).grown fun _ => trivial
  store _ i key _ _ hv := by
    obtain rfl := Comparison.related_iff_eq.1 hv
    exact of_step (Run.keeps_setEntry i key _).grown fun _ => trivial
  inFrame := Watches.inFrame hP

section Rules

variable {fuel : Nat}
variable (heval : ∀ e e', e = e' → Watches P .expression Value (Comparison.Related {}) (Watch.eval fuel e)
  (Run.eval fuel e'))
variable (hexec : ∀ s, Watches P .statement Flow Eq (Watch.exec fuel s) (Run.exec fuel s))

include hexec

theorem execAll (ss : List Stmt) : Watches P .statement Flow Eq (Run.execAll (Watch.exec fuel) ss)
    (Run.execAll (Run.exec fuel) ss) :=
  (stepwise_watches hP).execAll (List.forall₂_same.2 fun s _ => hexec s)

theorem body (f f' : Routine) (hf : (Comparison.terms {}).function f f') :
    Watches P .statement Flow Eq (Run.inFile f.file (Run.execAll (Watch.exec fuel) f.body.stmts))
      (Run.inFile f'.file (Run.execAll (Run.exec fuel) f'.body.stmts)) := by
  obtain rfl : f' = f := hf.1.trans f.relabel_id
  exact (execAll hP hexec f'.body.stmts).inFile hP f'.file

include heval

theorem callRoutine (f : Routine) (args : List Expr) :
    Watches P .statement Value (Comparison.Related {})
      (Run.callRoutine (Watch.eval fuel) (Watch.exec fuel) f args)
      (Run.callRoutine (Run.eval fuel) (Run.exec fuel) f args) :=
  (stepwise_watches hP).callRoutine heval (body hP hexec) (List.forall₂_refl args)
    ⟨f.relabel_id.symm, fun _ _ => trivial⟩

theorem evalRule (e : Expr) : Watches P .expression Value (Comparison.Related {})
    (Run.evalRule (Watch.eval fuel) (Watch.exec fuel) e)
    (Run.evalRule (Run.eval fuel) (Run.exec fuel) e) := by
  have hR := stepwise_watches hP
  have hnode : e.SameNode (Comparison.terms {}).lines (Comparison.terms {}).function Eq e := by
    refine e.sameNode_self ⟨none, false⟩ (fun _ => ?_) (fun line f _ => ?_) fun _ _ => rfl
    · exact ⟨⟨⟨none, false⟩, trivial⟩, rfl⟩
    · exact ⟨f.relabel_id.symm, fun _ _ => trivial⟩
  refine hR.evalRule heval hnode fun hline hcallee hargs => ?_
  obtain ⟨-, rfl⟩ := id hline
  exact inCall hP (hR.callBody heval (body hP hexec) hargs hline hcallee) _

theorem execRule (s : Stmt) : Watches P .statement Flow Eq
    (Run.execRule (Watch.eval fuel) (Watch.exec fuel) fuel s)
    (Run.execRule (Run.eval fuel) (Run.exec fuel) fuel s) := by
  have hR := stepwise_watches hP
  have hnode : s.SameNode (Comparison.terms {}).lines Eq Eq
      (fun name p name' p' => name = name' ∧ p = p') s := by
    refine s.sameNode_self ⟨none, false⟩ (fun _ => ?_) (fun _ _ => rfl) (fun _ _ => rfl)
      fun _ _ _ _ => ⟨rfl, rfl⟩
    exact ⟨⟨⟨none, false⟩, trivial⟩, rfl⟩
  refine hR.execRule heval hnode ?_ ?_ fun _ hcondition hbody => ?_
  · rintro ss _ rfl
    exact execAll hP hexec ss
  · rintro name p _ _ ⟨rfl, rfl⟩
    exact (execAll hP hexec p).inFile hP (some name)
  · exact hR.repeatWhile_same Watches.outOfFuel hcondition hbody fuel

end Rules

theorem eval_exec (fuel : Nat) :
    (∀ e e', e = e' → Watches P .expression Value (Comparison.Related {}) (Watch.eval fuel e)
      (Run.eval fuel e')) ∧
    (∀ s, Watches P .statement Flow Eq (Watch.exec fuel s) (Run.exec fuel s)) := by
  induction fuel with
  | zero =>
    refine ⟨?_, fun s => ?_⟩
    · rintro e _ rfl
      rw [Watch.eval, Run.eval]
      exact outOfFuel.note_bind _
    · rw [Watch.exec, Run.exec]
      exact outOfFuel.note_bind _
  | succ fuel ih =>
    obtain ⟨heval, hexec⟩ := ih
    refine ⟨?_, fun s => ?_⟩
    · rintro e _ rfl
      rw [Watch.eval, Run.eval]
      exact (evalRule hP heval hexec e).note_bind _
    · rw [Watch.exec, Run.exec]
      exact (execRule hP heval hexec s).note_bind _

theorem execute (fuel : Nat) (p : Program) :
    Watches P .statement Unit (fun _ _ => True) (Watch.execute fuel p) (Run.execute fuel p) :=
  (execAll hP (eval_exec hP fuel).2 p).bind hP fun _ _ _ => .pure trivial

end Stable

end Watches

/-! ### The points of a program -/

/-- A program does the same with a journal as without one. -/
theorem Watch.execute_erase (fuel : Nat) (p : Program) (w : Watched) :
    ((execute fuel p w).1, (execute fuel p w).2.machine) = Run.execute fuel p w.machine := by
  obtain ⟨hmachine, hconcur, -⟩ := (Watches.execute stable_depth_pos fuel p).recorded w
  exact Prod.ext hconcur.eq.symm hmachine

/-- What holds where a program starts, and is kept wherever a run can come to, holds at all points that
the program passes. -/
theorem Stable.forall_mem_begun {P : Machine → Prop} (hP : Stable P) (fuel : Nat) (p : Program)
    {m : Machine} (hm : P m) : ∀ point ∈ p.begun fuel m, P point.machine := by
  obtain ⟨begun, hbegun, hpoints⟩ := ((Watches.execute hP fuel p).recorded { machine := m }).points hm
  rw [List.append_nil] at hbegun
  rw [Program.begun, hbegun]
  exact hpoints

end TableScript
