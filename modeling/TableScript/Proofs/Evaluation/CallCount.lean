import Mathlib.Tactic.ByContra
import TableScript.Proofs.Evaluation.Points

/-!
# The depth of calls counts the open calls

A machine keeps the number of active calls beside its frames, and the two are changed in different places:
the number where a call is entered and left, the frames where any frame is opened and closed, be it after a
failure.  `InStep` says that they agree and that the limit is kept.  Code that leaves the stack of frames
in order leaves this in order as well (`InStep.change`), and the one place where the number of open calls
goes up has looked at the limit before, so it holds at every point of a run (`stable_inStep`).

`callDepth_eq_calls` adds what follows for a call: it fails by itself, with nothing begun in it, if and
only if as many calls are open as the limit allows.
-/

namespace TableScript

/-- How many of the open frames are those of calls. -/
def Scopes.calls (s : Scopes) : Nat := s.frames.countP fun f => f.kind.isCall

namespace Scopes

variable {s s' : Scopes}

theorem calls_push (s : Scopes) (kind : FrameKind) :
    (s.push kind).calls = s.calls + if kind.isCall then 1 else 0 := by
  simp only [calls, push, Array.countP_push]

/-- Frames that are changed are still blocks or still calls. -/
theorem Change.calls_eq (h : s.Change Frame.Grown s') : s'.calls = s.calls := by
  have hsize : s'.frames.size = s.frames.size := h.depth
  have hkinds : s'.frames.map (fun f => f.kind.isCall) = s.frames.map fun f => f.kind.isCall := by
    refine Array.ext (by simpa using hsize) fun i hi hi' => ?_
    simp only [Array.size_map] at hi hi'
    rw [Array.getElem_map, Array.getElem_map]
    have hf : s.frames[i]? = some s.frames[i] := Array.getElem?_eq_getElem hi'
    have hf' : s'.frames[i]? = some s'.frames[i] := Array.getElem?_eq_getElem hi
    by_cases hcurrent : i = s.current
    · obtain ⟨f, hf'', hgrown⟩ := h.top s.frames[i] (by rw [top?, ← hcurrent, hf])
      rw [top?, h.current, ← hcurrent, hf'] at hf''
      obtain rfl := Option.some.inj hf''
      exact hgrown.isCall
    · obtain ⟨f, hf'', hkept⟩ := h.outer i _ hcurrent hf
      rw [hf'] at hf''
      obtain rfl := Option.some.inj hf''
      exact hkept.grown.isCall
  have hcount := congrArg (Array.countP id) hkinds
  rwa [Array.countP_map, Array.countP_map] at hcount

end Scopes

/-- The depth of calls is the number of open calls, and both are within the limit. -/
structure Machine.InStep (limits : Limits) (m : Machine) : Prop where
  depth_pos : 0 < m.scopes.depth
  limits_eq : m.limits = limits
  calls : m.callDepth = m.scopes.calls
  bound : m.scopes.calls ≤ limits.callDepth

namespace Machine.InStep

variable {limits : Limits} {m m' : Machine}

theorem change (h : m.InStep limits) (hchange : m.Change Frame.Grown m') : m'.InStep limits where
  depth_pos := hchange.depth_pos h.depth_pos
  limits_eq := hchange.limits.trans h.limits_eq
  calls := by rw [hchange.callDepth, h.calls, hchange.scopes.calls_eq]
  bound := by
    rw [hchange.scopes.calls_eq]
    exact h.bound

theorem enterFrame (h : m.InStep limits) : (Run.enterFrame .block m).InStep limits where
  depth_pos := stable_depth_pos.frame h.depth_pos
  limits_eq := h.limits_eq
  calls := h.calls.trans (m.scopes.calls_push .block).symm
  bound := Nat.le_trans (Nat.le_of_eq (m.scopes.calls_push .block)) h.bound

/-- The depth of calls is raised together with the frame of the call. -/
theorem enterCall (h : m.InStep limits) (hlimit : m.callDepth < m.limits.callDepth) :
    (Run.enterCall m).InStep limits := by
  have hcalls : (Run.enterCall m).scopes.calls = m.scopes.calls + 1 :=
    m.scopes.calls_push (.function .null)
  refine ⟨stable_depth_pos.call h.depth_pos hlimit, h.limits_eq, ?_, ?_⟩
  · rw [hcalls, ← h.calls]
    rfl
  · rw [hcalls, ← h.calls, ← h.limits_eq]
    exact hlimit

/-- Where the depth of calls is in step, it is at the limit exactly if that many calls are open. -/
theorem limit_le_iff (h : m.InStep limits) :
    m.limits.callDepth ≤ m.callDepth ↔ m.scopes.calls = limits.callDepth := by
  rw [h.limits_eq, h.calls]
  exact ⟨Nat.le_antisymm h.bound, fun h => Nat.le_of_eq h.symm⟩

end Machine.InStep

theorem stable_inStep (limits : Limits) : Stable (Machine.InStep limits) where
  depth_pos h := h.depth_pos
  change h hchange := h.change hchange
  file _ h := ⟨h.depth_pos, h.limits_eq, h.calls, h.bound⟩
  frame h := h.enterFrame
  call h hlimit := h.enterCall hlimit

theorem Machine.inStep_fresh (limits : Limits) : Machine.InStep limits { limits } :=
  ⟨Nat.one_pos, rfl, rfl, Nat.zero_le _⟩

/-! ### Calls at the limit -/

namespace Watch

variable {m : Machine}

/-- A call at the limit fails before anything is begun in it. -/
theorem eval_call_of_le (fuel line : Nat) (callee : Expr) (args : List Expr)
    (hlimit : m.limits.callDepth ≤ m.callDepth) :
    eval (fuel + 1) (.call line callee args) { machine := m } =
      (.error (.failed (.runtime line (.callDepthExceeded m.limits.callDepth))),
        ⟨m, [⟨.expr (.call line callee args), m⟩]⟩) := by
  rw [eval]
  exact if_pos hlimit

/-- What is evaluated is the first point that is passed. -/
theorem eval_points (fuel : Nat) (e : Expr) {w : Watched} (hdepth : 0 < w.machine.scopes.depth) :
    ∃ later, (eval fuel e w).2.points = later ++ ⟨.expr e, w.machine⟩ :: w.points := by
  cases fuel with
  | zero =>
    rw [eval]
    exact ⟨[], rfl⟩
  | succ fuel =>
    obtain ⟨heval, hexec⟩ := Watches.eval_exec stable_depth_pos fuel
    have hrule := Watches.evalRule stable_depth_pos heval hexec e
    obtain ⟨later, hlater, -⟩ :=
      (hrule.recorded { w with points := ⟨.expr e, w.machine⟩ :: w.points }).points hdepth
    rw [eval]
    exact ⟨later, hlater⟩

/-- A call below the limit begins with the function that is called, in the frame of the call. -/
theorem eval_call_of_lt (fuel line : Nat) (callee : Expr) (args : List Expr)
    (hdepth : 0 < m.scopes.depth) (hlimit : m.callDepth < m.limits.callDepth) :
    ∃ later, (eval (fuel + 1) (.call line callee args) { machine := m }).2.points =
      later ++ [⟨.expr callee, Run.enterCall m⟩, ⟨.expr (.call line callee args), m⟩] := by
  obtain ⟨heval, hexec⟩ := Watches.eval_exec stable_depth_pos fuel
  let w : Watched := ⟨Run.enterCall m, [⟨.expr (.call line callee args), m⟩]⟩
  have hw : 0 < w.machine.scopes.depth := stable_depth_pos.call hdepth hlimit
  have hR := Watches.stepwise_watches stable_depth_pos
  have hline : (Comparison.terms {}).lines .call line line := ⟨⟨⟨none, false⟩, trivial⟩, rfl⟩
  have hcallee := hR.weaken (heval callee callee rfl)
  have hcheck : ∀ v v', Comparison.Related {} v v' → Watches (0 < ·.scopes.depth) .statement Routine
      (Comparison.terms {}).function (Run.check line v.toRoutine) (Run.check line v'.toRoutine) :=
    fun v v' hv => hR.check hline hv.toRoutine
  have hbody : ∀ f f', (Comparison.terms {}).function f f' → Watches (0 < ·.scopes.depth) .statement Value
      (Comparison.Related {}) (Run.callRoutine (eval fuel) (exec fuel) f args)
      (Run.callRoutine (Run.eval fuel) (Run.exec fuel) f' args) := by
    intro f f' hf
    obtain rfl : f' = f := hf.1.trans f.relabel_id
    exact Watches.callRoutine stable_depth_pos heval hexec f' args
  -- from the last point to the first: behind the callee, in the check that it is a function, in it
  obtain ⟨behind, hbehind, -⟩ :=
    (hcallee.bind stable_depth_pos hcheck).points_bind stable_depth_pos hbody hw
  obtain ⟨checked, hchecked, -⟩ := hcallee.points_bind stable_depth_pos hcheck hw
  obtain ⟨inside, hinside⟩ := eval_points fuel callee hw
  have hcall : (eval (fuel + 1) (.call line callee args) { machine := m }).2.points =
      behind ++ (Run.evalRoutine (eval fuel) line callee w).2.points := by
    rw [eval]
    show (Run.inCall line _ (⟨m, [⟨.expr (.call line callee args), m⟩]⟩ : Watched)).2.points = _
    have hroom : ¬ m.limits.callDepth ≤ m.callDepth := Nat.not_le.2 hlimit
    rw [Run.inCall]
    simp only [HasMachine.machine, if_neg hroom]
    exact hbehind
  refine ⟨behind ++ (checked ++ inside), ?_⟩
  rw [hcall, Run.evalRoutine, hchecked, hinside, List.append_assoc, List.append_assoc]

end Watch

/-- The machine when a run is done with the code of a point. -/
def Point.after (fuel : Nat) (point : Point) : Machine :=
  match point.code with
  | .expr e => (Run.eval fuel e point.machine).2
  | .stmt s => (Run.exec fuel s point.machine).2

theorem Point.change_after (fuel : Nat) (point : Point) (hdepth : 0 < point.machine.scopes.depth) :
    point.machine.Change Frame.Grown (point.after fuel) := by
  obtain ⟨code, m⟩ := point
  cases code with
  | expr e => exact ((Run.keeps_eval_exec fuel).1 e).grown m hdepth
  | stmt s => exact (Run.keeps_eval_exec fuel).2 s m hdepth

/-- **The depth of calls counts the open calls.**  Wherever a program begins with an expression or a
statement, started on a new machine with any limits, the depth of calls is the number of open calls, which
is within the limit, and as many are open when it is done with it.  A call that it comes to fails by itself,
with nothing begun in it and nothing changed, exactly if as many calls are open as the limit allows;
otherwise it begins with the function that is called, with one call more.  The points are those of the run:
the program does the same with a journal as without one. -/
theorem callDepth_eq_calls (limits : Limits) (p : Program) (fuel : Nat) :
    ((Watch.execute fuel p { machine := { limits } }).1,
        (Watch.execute fuel p { machine := { limits } }).2.machine) = Run.execute fuel p { limits } ∧
    ∀ point ∈ p.begun fuel { limits },
      point.machine.callDepth = point.machine.scopes.calls ∧
      point.machine.scopes.calls ≤ limits.callDepth ∧
      (∀ fuel', (point.after fuel').scopes.calls = point.machine.scopes.calls) ∧
      ∀ line callee args, point.code = .expr (.call line callee args) → ∀ fuel',
        (Watch.eval (fuel' + 1) (.call line callee args) { machine := point.machine } =
            (.error (.failed (.runtime line (.callDepthExceeded limits.callDepth))),
              ⟨point.machine, [point]⟩) ↔
          point.machine.scopes.calls = limits.callDepth) ∧
        (point.machine.scopes.calls < limits.callDepth →
          (Run.enterCall point.machine).scopes.calls = point.machine.scopes.calls + 1 ∧
          ∃ later, (Watch.eval (fuel' + 1) (.call line callee args)
            { machine := point.machine }).2.points =
              later ++ [⟨.expr callee, Run.enterCall point.machine⟩, point]) := by
  refine ⟨Watch.execute_erase fuel p _, fun point hpoint => ?_⟩
  have hstep : point.machine.InStep limits :=
    (stable_inStep limits).forall_mem_begun fuel p (Machine.inStep_fresh limits) point hpoint
  refine ⟨hstep.calls, hstep.bound, fun fuel' => ?_, ?_⟩
  · exact (point.change_after fuel' hstep.depth_pos).scopes.calls_eq
  · obtain ⟨code, m⟩ := point
    rintro line callee args rfl fuel'
    have hbelow : m.scopes.calls < limits.callDepth → ∃ later,
        (Watch.eval (fuel' + 1) (.call line callee args) { machine := m }).2.points =
          later ++ [⟨.expr callee, Run.enterCall m⟩, ⟨.expr (.call line callee args), m⟩] := by
      intro hlt
      refine Watch.eval_call_of_lt fuel' line callee args hstep.depth_pos ?_
      rwa [hstep.calls, hstep.limits_eq]
    refine ⟨⟨fun hfails => ?_, fun hfull => ?_⟩, fun hlt => ⟨m.scopes.calls_push _, hbelow hlt⟩⟩
    · -- a call that is not at the limit passes a second point
      by_contra hne
      obtain ⟨later, hpoints⟩ := hbelow (Nat.lt_of_le_of_ne hstep.bound hne)
      rw [hfails] at hpoints
      have hlength := congrArg List.length hpoints
      simp at hlength
    · rw [Watch.eval_call_of_le fuel' line callee args (hstep.limit_le_iff.2 hfull), hstep.limits_eq]

/-- A call with a call as its argument. -/
def callInCall : Program :=
  [.assign 1 .define (.var 1 "f") (.function 1 (.mk 1 1 none [] (.mk 1 []))),
    .expr 2 (.call 2 (.var 2 "f") [.call 3 (.var 3 "f") []])]

/-- If one call is allowed, then the argument is a call too many: the call that it is an argument of is
open already. -/
theorem callDepth_eq_calls_callInCall :
    ∃ point ∈ callInCall.begun 4 { limits := { callDepth := 1 } },
      point.code = .expr (.call 3 (.var 3 "f") []) ∧
      point.machine.callDepth = 1 ∧ point.machine.scopes.calls = 1 ∧
      Watch.eval 1 (.call 3 (.var 3 "f") []) { machine := point.machine } =
        (.error (.failed (.runtime 3 (.callDepthExceeded 1))), ⟨point.machine, [point]⟩) := by
  have hlast : ∃ point points,
      callInCall.begun 4 { limits := { callDepth := 1 } } = point :: points ∧
        point.code = .expr (.call 3 (.var 3 "f") []) ∧ point.machine.scopes.calls = 1 :=
    ⟨_, _, by with_unfolding_all rfl, by with_unfolding_all rfl, by with_unfolding_all rfl⟩
  obtain ⟨point, points, hbegun, hcode, hcalls⟩ := hlast
  have hpoint : point ∈ callInCall.begun 4 { limits := { callDepth := 1 } } := by
    rw [hbegun]
    exact List.mem_cons_self
  obtain ⟨hdepth, -, -, hcall⟩ := (callDepth_eq_calls { callDepth := 1 } callInCall 4).2 point hpoint
  exact ⟨point, hpoint, hcode, hdepth.trans hcalls, hcalls, ((hcall 3 _ _ hcode 0).1).2 hcalls⟩

end TableScript
