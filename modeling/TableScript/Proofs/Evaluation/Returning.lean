import TableScript.Proofs.Evaluation.Parametric
import TableScript.Proofs.Evaluation.StackDiscipline

/-!
# Where code can return

A statement ends by returning only in a frame of a call.  Elsewhere a `Return` fails, and a conditional
or a loop has a frame of its own, which is none of a call.  So outside of calls the statements of a
program are carried out one after another, to the last one or to the first that fails, and two programs
can be run as one (`execute_append`).
-/

namespace TableScript

/-- The current frame was opened by a call. -/
def Scopes.InCall (s : Scopes) : Prop := ∃ f, s.top? = some f ∧ f.kind.isCall = true

/-- What code does in a frame does not make it the frame of a call. -/
theorem Scopes.InCall.of_change {s s' : Scopes} (h : s.Change Frame.Grown s') (hcall : s'.InCall) :
    s.InCall := by
  obtain ⟨f', hf', hcall⟩ := hcall
  have hlt : s.current < s.frames.size := by
    obtain ⟨hlt, -⟩ := Array.getElem?_eq_some_iff.1 hf'
    have hdepth : s'.frames.size = s.frames.size := h.depth
    rw [← hdepth, ← h.current]
    exact hlt
  have htop : s.top? = some s.frames[s.current] := Array.getElem?_eq_getElem hlt
  obtain ⟨f'', hf'', hgrown⟩ := h.top _ htop
  obtain rfl : f'' = f' := Option.some.inj (hf''.symm.trans hf')
  exact ⟨_, htop, hgrown.isCall ▸ hcall⟩

theorem Scopes.not_inCall_push (s : Scopes) : ¬ (s.push .block).InCall := by
  rintro ⟨f, hf, hcall⟩
  obtain rfl : ({ parent := some s.current, kind := .block } : Frame) = f := by
    simpa [top?, push] using hf
  cases hcall

namespace Run

variable {α : Type}

/-- With a frame open, the run returns only if that is the frame of a call. -/
def ReturnsInCall (x : Run Flow) : Prop :=
  ∀ m m', 0 < m.scopes.depth → x m = (.ok .returned, m') → m.scopes.InCall

theorem returnsInCall_bind {x : Run α} {f : α → Run Flow} (hx : Keeps Frame.Grown x)
    (hf : ∀ a, ReturnsInCall (f a)) : ReturnsInCall (x >>= f) := by
  intro m m' hdepth hrun
  obtain ⟨a, m₁, hfirst, hrest⟩ := Action.bind_eq_ok_iff.1 hrun
  have hchange := hx.change hfirst hdepth
  exact .of_change hchange.scopes (hf a m₁ m' (hchange.depth_pos hdepth) hrest)

theorem returnsInCall_pure_normal : ReturnsInCall (pure .normal) := by
  rintro m m' - ⟨⟩

/-- A frame of its own is none of a call. -/
theorem inFrame_ne_returned {x : Run Flow} (hx : ReturnsInCall x) (m : Machine) :
    (inFrame .block x m).1 ≠ .ok .returned := by
  intro hinside
  have hcall := hx { m with scopes := m.scopes.push .block } _ (by simp [Scopes.depth, Scopes.push])
    (Prod.ext hinside rfl)
  exact m.scopes.not_inCall_push hcall

theorem returnsInCall_inFrame {x : Run Flow} (hx : ReturnsInCall x) :
    ReturnsInCall (inFrame .block x) := fun m _ _ hrun =>
  absurd (congrArg Prod.fst hrun) (inFrame_ne_returned hx m)

theorem returnsInCall_inFile {x : Run Flow} (hx : ReturnsInCall x) (file : Option String) :
    ReturnsInCall (inFile file x) := by
  intro m m' hdepth hrun
  exact hx { m with file } _ hdepth (Prod.ext (ok_of_inFile (congrArg Prod.fst hrun)) rfl)

theorem returnsInCall_execAll {fuel : Nat} (hexec : ∀ s, ReturnsInCall (exec fuel s)) (ss : List Stmt) :
    ReturnsInCall (execAll (exec fuel) ss) := by
  induction ss with
  | nil => exact returnsInCall_pure_normal
  | cons s ss ih =>
    intro m m' hdepth hrun
    obtain ⟨flow, m₁, hfirst, hrest⟩ := Action.bind_eq_ok_iff.1 hrun
    cases flow with
    | returned => exact hexec s m m₁ hdepth hfirst
    | normal =>
      have hchange := ((keeps_eval_exec fuel).2 s).change hfirst hdepth
      exact .of_change hchange.scopes (ih m₁ m' (hchange.depth_pos hdepth) hrest)

theorem returnsInCall_repeatWhile {condition : Run Bool} {body : Run Flow}
    (hcondition : Keeps Frame.Grown condition) (hkeeps : Keeps Frame.Grown body)
    (hbody : ReturnsInCall body) (fuel : Nat) :
    ReturnsInCall (repeatWhile condition body fuel) := by
  induction fuel with
  | zero => rintro m m' - ⟨⟩
  | succ fuel ih =>
    refine returnsInCall_bind hcondition fun b => ?_
    cases b with
    | false => exact returnsInCall_pure_normal
    | true =>
      intro m m' hdepth hrun
      obtain ⟨flow, m₁, hfirst, hrest⟩ := Action.bind_eq_ok_iff.1 hrun
      cases flow with
      | returned => exact hbody m m₁ hdepth hfirst
      | normal =>
        have hchange := hkeeps.change hfirst hdepth
        exact .of_change hchange.scopes (ih m₁ m' (hchange.depth_pos hdepth) hrest)

/-- A result can be set only in the frame of a call. -/
theorem inCall_of_setResult {line : Nat} {v : Value} {m m' : Machine}
    (h : setResult line v m = (.ok (), m')) : m.scopes.InCall := by
  have hfound : (m.scopes.setResult v).1 = true := by
    obtain ⟨found, m₁, hupdate, hrest⟩ := Action.bind_eq_ok_iff.1 h
    cases found with
    | true => exact Except.ok.inj (congrArg Prod.fst hupdate)
    | false => cases hrest
  rcases htop : m.scopes.top? with - | ⟨names, parent, kind⟩
  · simp [Scopes.setResult, Scopes.result?, htop] at hfound
  · cases kind with
    | block => simp [Scopes.setResult, Scopes.result?, htop] at hfound
    | function w => exact ⟨_, htop, rfl⟩

theorem returnsInCall_exec (fuel : Nat) (s : Stmt) : ReturnsInCall (exec fuel s) := by
  induction fuel generalizing s with
  | zero =>
    rw [exec]
    rintro m m' - ⟨⟩
  | succ fuel ih =>
    have hevals := (keeps_eval_exec fuel).1
    have hall := returnsInCall_execAll ih
    cases s with
    | assign line how target value =>
      rw [exec, execRule]
      intro m m' _ hrun
      obtain ⟨_, _, -, hrest⟩ := Action.bind_eq_ok_iff.1 hrun
      cases hrest
    | block body =>
      rw [exec, execRule]
      exact hall body.stmts
    | get line file program =>
      rw [exec, execRule]
      exact returnsInCall_inFile (hall program) (some file)
    | cond line e yes no =>
      rw [exec, execRule]
      apply returnsInCall_inFrame
      exact returnsInCall_bind (keeps_evalBool fuel line e).grown fun b => hall _
    | loop line e body =>
      rw [exec, execRule]
      apply returnsInCall_inFrame
      exact returnsInCall_repeatWhile (keeps_evalBool fuel line e).grown (keeps_execAll fuel _) (hall _) fuel
    | ret line e =>
      rw [exec, execRule]
      refine returnsInCall_bind (hevals e).grown fun v => ?_
      intro m m' _ hrun
      obtain ⟨_, m₁, hset, -⟩ := Action.bind_eq_ok_iff.1 hrun
      exact inCall_of_setResult hset
    | expr line e =>
      rw [exec, execRule]
      exact returnsInCall_bind (hevals e).grown fun _ => returnsInCall_pure_normal

/-- Statements behind others are carried out if those do not return. -/
theorem execAll_append (exec : Stmt → Run Flow) (ss ss' : List Stmt) (m : Machine) :
    execAll exec (ss ++ ss') m = (execAll exec ss >>= fun flow => match flow with
      | .normal => execAll exec ss'
      | .returned => pure .returned) m := by
  induction ss generalizing m with
  | nil => rfl
  | cons s ss ih =>
    rw [List.cons_append, execAll, execAll, Action.bind_apply, Action.bind_apply, Action.bind_apply]
    rcases exec s m with ⟨e | _ | _, m₁⟩
    · rfl
    · exact ih m₁
    · rfl

/-- Outside of calls, statements are carried out to the end unless one fails, so two programs can be run
as one. -/
theorem execute_append (fuel : Nat) (p q : Program) {m : Machine} (hdepth : 0 < m.scopes.depth)
    (hcall : ¬ m.scopes.InCall) :
    execute fuel (p ++ q) m = (execute fuel p >>= fun _ => execute fuel q) m := by
  have hreturns := returnsInCall_execAll (returnsInCall_exec fuel) p
  rw [execute, execute, Action.bind_apply, execAll_append, Action.bind_apply, Action.bind_apply,
    Action.bind_apply]
  rcases hrun : execAll (exec fuel) p m with ⟨e | _ | _, m₁⟩
  · rfl
  · rfl
  · exact absurd (hreturns m m₁ hdepth hrun) hcall

end Run

end TableScript
