import TableScript.Proofs.Evaluation.Arguments
import TableScript.Proofs.Evaluation.Reached

/-!
# The one `Return` of a call

A `Return` works in the frame of a call and nowhere else.  There it sets the result of the call and ends
its body; as long as code does not return, the result stays as it is (`keepsResult_exec`).  A conditional
and a loop have frames of their own, so a `Return` inside of one of them fails.  A block and an import
have none.

So a call whose body does not fail has come to no `Return`, and its value is `Null`, or it has come to
one `Return`, which was the last statement that was carried out, and its value is what that says
(`return_discipline`).  Outside of calls a program fails or carries out all of its statements.
-/

namespace TableScript

/-! ### Results -/

/-- A frame of the same kind, with the same result if it is that of a call. -/
def Frame.SameKind (f f' : Frame) : Prop := f'.kind = f.kind

instance : IsPreorder Frame Frame.SameKind where
  refl _ := rfl
  trans _ _ _ h h' := Eq.trans h' h

namespace Scopes

variable {s s' : Scopes} {v w : Value}

theorem Change.result?_eq (h : s.Change Frame.SameKind s') : s'.result? = s.result? := by
  rcases htop : s.top? with - | f
  · have hnone : s'.top? = none := by
      have hsize : s'.frames.size = s.frames.size := h.depth
      rw [top?, Array.getElem?_eq_none_iff] at htop ⊢
      rw [hsize, h.current]
      exact htop
    rw [result?, result?, htop, hnone]
  · obtain ⟨f', hf', hkind⟩ := h.top f htop
    obtain ⟨names, parent, kind⟩ := f
    obtain ⟨names', parent', kind'⟩ := f'
    obtain rfl : kind' = kind := hkind
    rw [result?, result?, htop, hf']
    cases kind' with
    | block => rfl
    | function v => rfl

theorem inCall_iff_result? : s.InCall ↔ ∃ v, s.result? = some v := by
  rcases htop : s.top? with - | ⟨names, parent, kind⟩
  · simp [InCall, result?, htop]
  · cases kind with
    | block => simp [InCall, result?, htop, FrameKind.isCall]
    | function v => simp [InCall, result?, htop, FrameKind.isCall]

theorem setResult_of_none (h : s.result? = none) (v : Value) : s.setResult v = (false, s) := by
  rw [setResult, h]

theorem setResult_of_some (h : s.result? = some w) (v : Value) :
    (s.setResult v).1 = true ∧ (s.setResult v).2.result? = some v := by
  rw [setResult, h]
  refine ⟨rfl, ?_⟩
  rcases htop : s.top? with - | f
  · simp [result?, htop] at h
  · have hf : s.frames[s.current]? = some f := htop
    simp [result?, top?, Array.getElem?_modify, hf]

end Scopes

namespace Run

variable {fuel fuel' line : Nat} {e : Expr} {s : Stmt} {ss : List Stmt} {m m' m₁ : Machine} {v : Value}

/-- Unless it returns, the run leaves the result of the current call as it is. -/
def KeepsResult (x : Run Flow) : Prop :=
  ∀ m, 0 < m.scopes.depth → (x m).1 ≠ .ok .returned → (x m).2.scopes.result? = m.scopes.result?

theorem keepsResult_of_keeps {x : Run Flow} (hx : Keeps Frame.SameKind x) : KeepsResult x :=
  fun m hdepth _ => (hx m hdepth).scopes.result?_eq

theorem keepsResult_of_kept {x : Run Flow} (hx : Keeps Frame.Kept x) : KeepsResult x :=
  keepsResult_of_keeps (hx.mono fun h => h.kind)

theorem keepsResult_execAll (hexec : ∀ s, KeepsResult (exec fuel s)) (ss : List Stmt) :
    KeepsResult (execAll (exec fuel) ss) := by
  induction ss with
  | nil => exact fun m _ _ => rfl
  | cons s ss ih =>
    intro m hdepth hflow
    rcases hs : exec fuel s m with ⟨r, m₁⟩
    have hfirst := hexec s m hdepth
    rw [hs] at hfirst
    by_cases hnormal : r = .ok .normal
    · subst hnormal
      rw [execAll_cons_of_normal hs] at hflow ⊢
      rw [ih m₁ (depth_pos_of_exec hs hdepth) hflow]
      exact hfirst (by rintro ⟨⟩)
    · rw [execAll_cons_of_ne hs hnormal] at hflow ⊢
      exact hfirst hflow

/-! ### A `Return` by itself -/

theorem setResult_of_inCall (hcall : m.scopes.InCall) (line : Nat) (v : Value) :
    setResult line v m = (.ok (), { m with scopes := (m.scopes.setResult v).2 }) := by
  obtain ⟨w, hw⟩ := Scopes.inCall_iff_result?.1 hcall
  rw [setResult, Action.bind_apply, Action.update_apply, (Scopes.setResult_of_some hw v).1]
  rfl

theorem setResult_of_not_inCall (hcall : ¬ m.scopes.InCall) (line : Nat) (v : Value) :
    setResult line v m = (.error (.failed (.runtime line .returnOutsideFunction)), m) := by
  have hnone : m.scopes.result? = none := by
    rw [Scopes.inCall_iff_result?] at hcall
    exact Option.eq_none_iff_forall_ne_some.2 fun w hw => hcall ⟨w, hw⟩
  rw [setResult, Action.bind_apply, Action.update_apply, Scopes.setResult_of_none hnone]
  rfl

/-- In the frame of a call a `Return` sets the result. -/
theorem exec_ret_of_inCall (line : Nat) (heval : eval fuel e m = (.ok v, m₁))
    (hcall : m₁.scopes.InCall) :
    exec (fuel + 1) (.ret line e) m =
      (.ok .returned, { m₁ with scopes := (m₁.scopes.setResult v).2 }) := by
  have hset := setResult_of_inCall hcall line v
  rw [exec, execRule, Action.bind_of_ok heval, step_self, Action.bind_of_ok hset]
  rfl

/-- In any other frame it fails. -/
theorem exec_ret_of_not_inCall (line : Nat) (heval : eval fuel e m = (.ok v, m₁))
    (hcall : ¬ m₁.scopes.InCall) :
    exec (fuel + 1) (.ret line e) m =
      (.error (.failed (.runtime line .returnOutsideFunction)), m₁) := by
  rw [exec, execRule, Action.bind_of_ok heval]
  exact Action.bind_of_error (setResult_of_not_inCall hcall line v)

theorem change_of_eval {r : Except Stop Value} (heval : eval fuel e m = (r, m₁))
    (hdepth : 0 < m.scopes.depth) : m.Change Frame.Kept m₁ :=
  ((keeps_eval_exec fuel).1 e).change heval hdepth

theorem inCall_iff_of_eval (heval : eval fuel e m = (.ok v, m₁)) (hdepth : 0 < m.scopes.depth) :
    m₁.scopes.InCall ↔ m.scopes.InCall :=
  Scopes.inCall_iff_of_change ((change_of_eval heval hdepth).scopes.mono Frame.Kept.grown)

theorem exec_ret_eq_returned (h : exec (fuel + 1) (.ret line e) m = (.ok .returned, m')) :
    ∃ v m₁, eval fuel e m = (.ok v, m₁) ∧ m₁.scopes.InCall ∧
      m' = { m₁ with scopes := (m₁.scopes.setResult v).2 } := by
  rw [exec, execRule] at h
  obtain ⟨v, m₁, heval, hrest⟩ := Action.bind_eq_ok_iff.1 h
  obtain ⟨_, m₂, hset, hpure⟩ := Action.bind_eq_ok_iff.1 hrest
  rw [step_self] at hset
  have hcall := inCall_of_setResult hset
  rw [setResult_of_inCall hcall] at hset
  cases hset
  cases hpure
  exact ⟨v, m₁, heval, hcall, rfl⟩

theorem keepsResult_ret (fuel line : Nat) (e : Expr) :
    KeepsResult (exec (fuel + 1) (.ret line e)) := by
  intro m hdepth hflow
  rcases heval : eval fuel e m with ⟨stop | v, m₁⟩
  all_goals have hresult := ((change_of_eval heval hdepth).scopes.mono fun h => h.kind).result?_eq
  · rw [exec, execRule, Action.bind_of_error heval]
    exact hresult
  · by_cases hcall : m₁.scopes.InCall
    · rw [exec_ret_of_inCall line heval hcall] at hflow
      exact absurd rfl hflow
    · rw [exec_ret_of_not_inCall line heval hcall]
      exact hresult

/-- An assignment changes the current frame at most by binding a name, which does not change its kind. -/
theorem keeps_assign (fuel line : Nat) (how : Assignment) (target value : Expr) :
    Keeps Frame.SameKind (assign (eval fuel) line how target value) := by
  have heval := (keeps_eval_exec fuel).1
  have hkind : ∀ {f f'}, Frame.Kept f f' → Frame.SameKind f f' := fun h => h.kind
  cases target with
  | var _ name =>
    refine ((heval value).mono hkind).bind fun v => ?_
    cases how with
    | define => exact fun m _ => ⟨Scopes.change_modify_top fun _ _ => rfl, rfl, rfl, rfl⟩
    | reassign => exact (keeps_reassign line name v).mono hkind
  | index line base key =>
    refine Keeps.mono ?_ hkind
    refine (keeps_evalAs fuel line base Value.toTable).bind fun t => ?_
    refine (keeps_evalAs fuel line key Key.ofValue).bind fun k => ?_
    exact (heval value).bind fun v => keeps_setEntry t k v
  | _ => exact keeps_failAt line .invalidTarget

theorem keepsResult_exec (fuel : Nat) (s : Stmt) : KeepsResult (exec fuel s) := by
  induction fuel generalizing s with
  | zero =>
    rw [exec]
    exact fun m _ _ => rfl
  | succ fuel ih =>
    have hevals := (keeps_eval_exec fuel).1
    cases s with
    | assign line how target value =>
      rw [exec, execRule]
      apply keepsResult_of_keeps
      exact (keeps_assign fuel line how target value).bind fun _ => keeps_pure Flow.normal
    | block body =>
      rw [exec, execRule]
      exact keepsResult_execAll ih body.stmts
    | get line file program =>
      intro m hdepth hflow
      obtain ⟨mark, -, hrun⟩ := inFile_of_keeps (keeps_execAll fuel program) (some file) hdepth
      rw [exec, execRule, hrun] at hflow ⊢
      refine keepsResult_execAll ih program { m with file := some file } hdepth fun hreturned => ?_
      rw [hreturned] at hflow
      exact hflow rfl
    | cond line e yes no =>
      rw [exec, execRule]
      -- what is done is done in a frame that is closed again
      apply keepsResult_of_kept
      refine Keeps.inFrame ?_ .block
      exact (keeps_evalBool fuel line e).grown.bind fun b => keeps_execAll fuel _
    | loop line e body =>
      rw [exec, execRule]
      apply keepsResult_of_kept
      exact (keeps_repeatWhile fuel line e body.stmts fuel).inFrame .block
    | ret line e => exact keepsResult_ret fuel line e
    | expr line e =>
      rw [exec, execRule]
      exact keepsResult_of_kept ((hevals e).bind fun _ => keeps_pure _)

/-! ### Lists of statements -/

/-- Statement after statement is carried out, and all of them end normally. -/
inductive RunsThrough (fuel : Nat) : List Stmt → Machine → Machine → Prop
  | nil {m : Machine} : RunsThrough fuel [] m m
  | cons {s : Stmt} {ss : List Stmt} {m m₁ m' : Machine} : exec fuel s m = (.ok .normal, m₁) →
      RunsThrough fuel ss m₁ m' → RunsThrough fuel (s :: ss) m m'

/-- All statements were carried out, and no `Return` was reached. -/
structure NoReturn (fuel : Nat) (ss : List Stmt) (m m' : Machine) : Prop where
  through : RunsThrough fuel ss m m'
  unreached : ∀ inside fuel' line e m₁, ¬ GetsTo inside fuel ss m fuel' (.ret line e) m₁

/-- One `Return` was reached, with no conditional and no loop around it, and nothing was carried out
after it.  It set the result to `v`. -/
def OneReturn (fuel : Nat) (ss : List Stmt) (m : Machine) (v : Value) (m' : Machine) : Prop :=
  ∃ fuel' line e m₁ m₂, GetsTo false fuel ss m (fuel' + 1) (.ret line e) m₁ ∧
    eval fuel' e m₁ = (.ok v, m₂) ∧
    m' = { m₂ with scopes := (m₂.scopes.setResult v).2, file := m.file } ∧
    ∀ inside fuel'' line' e' m₁', GetsTo inside fuel ss m fuel'' (.ret line' e') m₁' →
      inside = false ∧ fuel'' = fuel' + 1 ∧ line' = line ∧ e' = e ∧ m₁' = m₁

theorem runsThrough_of_normal (h : execAll (exec fuel) ss m = (.ok .normal, m')) :
    RunsThrough fuel ss m m' := by
  induction ss generalizing m with
  | nil =>
    cases h
    exact .nil
  | cons s ss ih =>
    obtain ⟨flow, m₁, hfirst, hrest⟩ := Action.bind_eq_ok_iff.1 h
    cases flow with
    | normal => exact .cons hfirst (ih hrest)
    | returned => cases hrest

theorem RunsThrough.execAll_eq (h : RunsThrough fuel ss m m') :
    execAll (exec fuel) ss m = (.ok .normal, m') := by
  induction h with
  | nil => rfl
  | cons hfirst _ ih => rw [execAll_cons_of_normal hfirst, ih]

theorem noReturn_of_normal (hdepth : 0 < m.scopes.depth)
    (h : execAll (exec fuel) ss m = (.ok .normal, m')) : NoReturn fuel ss m m' where
  through := runsThrough_of_normal h
  unreached _ _ _ _ _ hgets := hgets.ret_not_normal hdepth (congrArg Prod.fst h)

theorem oneReturn_of_returned (hdepth : 0 < m.scopes.depth)
    (h : execAll (exec fuel) ss m = (.ok .returned, m')) :
    ∃ v, OneReturn fuel ss m v m' := by
  obtain ⟨fuel', line, e, m₁, m₂, hgets, hret, rfl⟩ := exists_getsTo_of_returned hdepth h
  obtain ⟨v, m₃, heval, -, rfl⟩ := exec_ret_eq_returned hret
  refine ⟨v, fuel', line, e, m₁, m₃, hgets, heval, rfl, ?_⟩
  intro inside fuel'' line' e' m₁' hgets'
  exact hgets.unique hgets' hdepth

/-- In the frame of a call, the statements then return and leave the value as the result. -/
theorem OneReturn.execAll_eq (h : OneReturn fuel ss m v m') (hdepth : 0 < m.scopes.depth)
    (hcall : m.scopes.InCall) :
    execAll (exec fuel) ss m = (.ok .returned, m') ∧ m'.scopes.result? = some v := by
  obtain ⟨fuel', line, e, m₁, m₂, hgets, heval, rfl, -⟩ := h
  have hcall' : m₂.scopes.InCall := by
    rw [inCall_iff_of_eval heval (hgets.depth_pos hdepth), hgets.inCall_iff hdepth]
    exact ⟨rfl, hcall⟩
  constructor
  · exact hgets.returns rfl hdepth (exec_ret_of_inCall line heval hcall')
  · obtain ⟨w, hw⟩ := Scopes.inCall_iff_result?.1 hcall'
    exact (Scopes.setResult_of_some hw v).2

/-- A `Return` inside of a conditional or a loop fails, and all that leads to it. -/
theorem GetsTo.ret_fails (h : GetsTo true fuel ss m (fuel' + 1) (.ret line e) m₁)
    (hdepth : 0 < m.scopes.depth) (heval : eval fuel' e m₁ = (.ok v, m')) :
    exec (fuel' + 1) (.ret line e) m₁ =
        (.error (.failed (.runtime line .returnOutsideFunction)), m') ∧
      ∃ files, (execAll (exec fuel) ss m).1 =
        .error (.failed ⟨.runtime line .returnOutsideFunction, files⟩) := by
  have hcall : ¬ m'.scopes.InCall := by
    rw [inCall_iff_of_eval heval (h.depth_pos hdepth), h.inCall_iff hdepth]
    rintro ⟨⟨⟩, -⟩
  have hret := exec_ret_of_not_inCall line heval hcall
  exact ⟨hret, h.fails hdepth (congrArg Prod.fst hret)⟩

/-! ### Calls -/

/-- A call on `m` comes to the body of the function `f`, which starts on `start`. -/
def StartsBody (fuel line : Nat) (callee : Expr) (args : List Expr) (m : Machine) (f : Routine)
    (start : Machine) : Prop :=
  m.callDepth < m.limits.callDepth ∧ ∃ vs m₁,
    operands (eval fuel) line callee args { m with callDepth := m.callDepth + 1 } =
      (.ok (f, vs), m₁) ∧
    start = { m₁.openCall (bindAll f.params vs {}) with file := f.file }

namespace StartsBody

variable {callee : Expr} {args : List Expr} {f : Routine} {start : Machine}

theorem depth_pos (h : StartsBody fuel line callee args m f start) : 0 < start.scopes.depth := by
  obtain ⟨-, vs, m₁, -, rfl⟩ := h
  simp [Machine.openCall, Scopes.depth]

theorem result? (h : StartsBody fuel line callee args m f start) :
    start.scopes.result? = some .null := by
  obtain ⟨-, vs, m₁, -, rfl⟩ := h
  simp [Machine.openCall, Scopes.result?, Scopes.top?]

theorem inCall (h : StartsBody fuel line callee args m f start) : start.scopes.InCall :=
  Scopes.inCall_iff_result?.2 ⟨_, h.result?⟩

/-- The call ends as the body does, and its value is the result that is set then. -/
theorem eval_eq (h : StartsBody fuel line callee args m f start) (hm : m.scopes.Built) :
    ∃ mark : Stop → Stop, (mark = id ∨ ∃ name, mark = Stop.inFile name) ∧
      eval (fuel + 1) (.call line callee args) m =
        (((execAll (exec fuel) f.body.stmts start).1.map fun _ =>
            (execAll (exec fuel) f.body.stmts start).2.scopes.result?.getD .null).mapError mark,
          leaveCall { (execAll (exec fuel) f.body.stmts start).2 with file := m.file }) := by
  have hdepth := h.depth_pos
  obtain ⟨hroom, vs, m₁, hoperands, rfl⟩ := h
  have hkeeps := (keeps_operands fuel line callee args).change hoperands hm.depth_pos
  have hfile : m₁.file = m.file := hkeeps.file
  have hopen : 0 < (m₁.openCall (bindAll f.params vs {})).scopes.depth := hdepth
  obtain ⟨mark, hmark, hrun⟩ := inFile_of_keeps (keeps_execAll fuel f.body.stmts) f.file hopen
  refine ⟨mark, hmark, ?_⟩
  rw [eval_call_of_ok hm hroom hoperands, Action.between_apply, runBody, Action.bind_apply, hrun,
    ← hfile]
  rcases execAll (exec fuel) f.body.stmts
    { m₁.openCall (bindAll f.params vs {}) with file := f.file } with ⟨_ | flow, m₂⟩
  · rfl
  · rfl

/-- If the body does not fail, the call has a value. -/
theorem eval_of_ok (h : StartsBody fuel line callee args m f start) (hm : m.scopes.Built) {flow : Flow}
    (hbody : execAll (exec fuel) f.body.stmts start = (.ok flow, m₁)) :
    eval (fuel + 1) (.call line callee args) m =
      (.ok (m₁.scopes.result?.getD .null), leaveCall { m₁ with file := m.file }) := by
  obtain ⟨mark, -, heval⟩ := h.eval_eq hm
  rw [heval, hbody]
  rfl

/-- If the body fails, the call fails for the same cause. -/
theorem fails (h : StartsBody fuel line callee args m f start) (hm : m.scopes.Built) {cause : Cause}
    {files : List String}
    (hbody : (execAll (exec fuel) f.body.stmts start).1 = .error (.failed ⟨cause, files⟩)) :
    ∃ files', (eval (fuel + 1) (.call line callee args) m).1 = .error (.failed ⟨cause, files'⟩) := by
  obtain ⟨mark, hmark, heval⟩ := h.eval_eq hm
  obtain ⟨files', hmarked⟩ := exists_files_of_mark hmark cause files
  rw [heval, hbody]
  exact ⟨files', congrArg Except.error hmarked⟩

/-- A body that does not return leaves the result that the call starts with. -/
theorem result?_of_normal (h : StartsBody fuel line callee args m f start)
    (hbody : execAll (exec fuel) f.body.stmts start = (.ok .normal, m₁)) :
    m₁.scopes.result? = some .null := by
  have hkeeps := keepsResult_execAll (keepsResult_exec fuel) f.body.stmts start h.depth_pos
  rw [hbody] at hkeeps
  rw [hkeeps (by rintro ⟨⟩), h.result?]

end StartsBody

/-- A call that has a value has come to its body. -/
theorem exists_startsBody {callee : Expr} {args : List Expr} (hm : m.scopes.Built)
    (h : (eval (fuel + 1) (.call line callee args) m).1 = .ok v) :
    ∃ f start, StartsBody fuel line callee args m f start := by
  by_cases hroom : m.callDepth < m.limits.callDepth
  · rcases hoperands : operands (eval fuel) line callee args { m with callDepth := m.callDepth + 1 }
      with ⟨stop | ⟨f, vs⟩, m₁⟩
    · rw [eval_call_of_error hm hroom hoperands] at h
      cases h
    · exact ⟨f, _, hroom, vs, m₁, hoperands, rfl⟩
  · have hfull : eval (fuel + 1) (.call line callee args) m =
        failAt line (.callDepthExceeded m.limits.callDepth) m := by
      rw [eval_call]
      exact if_pos (Nat.not_lt.1 hroom)
    rw [hfull] at h
    cases h

/-- The value of a call is what its one `Return` says, or `Null` if there was none. -/
theorem eval_call_eq_ok_iff {callee : Expr} {args : List Expr} (hm : m.scopes.Built) :
    eval (fuel + 1) (.call line callee args) m = (.ok v, m') ↔
      ∃ f start m₁, StartsBody fuel line callee args m f start ∧
        m' = leaveCall { m₁ with file := m.file } ∧
        (v = .null ∧ NoReturn fuel f.body.stmts start m₁ ∨
          OneReturn fuel f.body.stmts start v m₁) := by
  constructor
  · intro h
    obtain ⟨f, start, hstart⟩ := exists_startsBody hm (congrArg Prod.fst h)
    rcases hbody : execAll (exec fuel) f.body.stmts start with ⟨stop | flow, m₁⟩
    · -- a body that fails leaves no value
      obtain ⟨mark, -, heval⟩ := hstart.eval_eq hm
      rw [hbody, h] at heval
      cases heval
    · have heval := hstart.eval_of_ok hm hbody
      rw [h] at heval
      obtain ⟨hvalue, rfl⟩ := Prod.mk.inj heval
      refine ⟨f, start, m₁, hstart, rfl, ?_⟩
      rw [Except.ok.inj hvalue]
      cases flow with
      | normal =>
        rw [hstart.result?_of_normal hbody]
        exact .inl ⟨rfl, noReturn_of_normal hstart.depth_pos hbody⟩
      | returned =>
        obtain ⟨w, hone⟩ := oneReturn_of_returned hstart.depth_pos hbody
        rw [(hone.execAll_eq hstart.depth_pos hstart.inCall).2]
        exact .inr hone
  · rintro ⟨f, start, m₁, hstart, rfl, ⟨rfl, hnone⟩ | hone⟩
    · have hbody := hnone.through.execAll_eq
      rw [hstart.eval_of_ok hm hbody, hstart.result?_of_normal hbody]
      rfl
    · obtain ⟨hbody, hv⟩ := hone.execAll_eq hstart.depth_pos hstart.inCall
      rw [hstart.eval_of_ok hm hbody, hv]
      rfl

end Run

/-! ### The root -/

namespace Scopes

variable {top : Frame → Frame → Prop} {s s' : Scopes}

theorem Change.root (h : s.Change top s')
    (htop : ∀ {f f'}, top f f' → f'.kind.isCall = f.kind.isCall) {f' : Frame}
    (hf' : s'.frames[0]? = some f') :
    ∃ f, s.frames[0]? = some f ∧ f'.kind.isCall = f.kind.isCall := by
  have hlt : 0 < s.frames.size := by
    obtain ⟨hlt, -⟩ := Array.getElem?_eq_some_iff.1 hf'
    have hdepth : s'.frames.size = s.frames.size := h.depth
    omega
  have hf : s.frames[0]? = some s.frames[0] := Array.getElem?_eq_getElem hlt
  refine ⟨_, hf, ?_⟩
  by_cases hroot : 0 = s.current
  · obtain ⟨f'', hf'', hchange⟩ := h.top s.frames[0] (by rw [top?, ← hroot, hf])
    rw [top?, h.current, ← hroot] at hf''
    obtain rfl : f'' = f' := Option.some.inj (hf''.symm.trans hf')
    exact htop hchange
  · obtain ⟨f'', hf'', hkept⟩ := h.outer 0 _ hroot hf
    obtain rfl : f'' = f' := Option.some.inj (hf''.symm.trans hf')
    rw [hkept.kind]

/-- The root is not opened by a call. -/
theorem Built.root_not_call (h : s.Built) : ∀ f, s.frames[0]? = some f → f.kind.isCall = false := by
  have hchanged {s s' : Scopes} (hchange : s.Change Frame.Grown s')
      (ih : ∀ f, s.frames[0]? = some f → f.kind.isCall = false) :
      ∀ f, s'.frames[0]? = some f → f.kind.isCall = false := by
    intro f' hf'
    obtain ⟨f, hf, hsame⟩ := hchange.root (fun h => h.isCall) hf'
    rw [hsame, ih f hf]
  induction h with
  | fresh =>
    intro f hf
    obtain rfl : ({ parent := none, kind := .block } : Frame) = f := by
      simpa [Scopes.fresh] using hf
    rfl
  | @push s kind hs ih =>
    intro f hf
    have hpos : 0 < s.frames.size := hs.depth_pos
    rw [Scopes.push, Array.getElem?_push, if_neg (by omega)] at hf
    exact ih f hf
  | @pop s _ ih =>
    intro f hf
    unfold Scopes.pop at hf
    split at hf
    · exact ih f hf
    · split at hf
      · exact ih f hf
      · -- the frame that is closed is the last one
        rw [Array.getElem?_pop] at hf
        split at hf
        · exact ih f hf
        · cases hf
  | define name v _ ih => exact hchanged (change_define _ name v) ih
  | reassign name v _ ih => exact hchanged ((change_reassign _ name v).mono Frame.Kept.grown) ih
  | setResult v _ ih => exact hchanged (change_setResult _ v) ih

theorem Built.not_inCall_root (h : s.Built) (hdepth : s.depth = 1) : ¬ s.InCall := by
  rintro ⟨f, hf, hcall⟩
  have hcurrent : s.current = 0 := by
    have hwell := h.wellFormed.current
    omega
  rw [top?, hcurrent] at hf
  rw [h.root_not_call f hf] at hcall
  cases hcall

end Scopes

namespace Run

variable {fuel : Nat} {m : Machine}

/-- At the root a program fails or carries out all of its statements. -/
theorem execute_at_root (hm : m.scopes.Built) (hdepth : m.scopes.depth = 1) (p : Program) :
    (∃ stop m', execute fuel p m = (.error stop, m')) ∨
      ∃ m', execute fuel p m = (.ok (), m') ∧ RunsThrough fuel p m m' := by
  rw [execute, Action.bind_apply]
  rcases hrun : execAll (exec fuel) p m with ⟨stop | _ | _, m'⟩
  · exact .inl ⟨stop, m', rfl⟩
  · exact .inr ⟨m', rfl, runsThrough_of_normal hrun⟩
  · exact absurd (returnsInCall_stmts fuel p m m' hm.depth_pos hrun) (hm.not_inCall_root hdepth)

/-- What a `Return` can do, with `fuel` units of fuel on the machine `m`. -/
structure ReturnsOnce (fuel : Nat) (m : Machine) : Prop where
  /-- A statement returns in the frame of a call only. -/
  inCall : ∀ s, (exec fuel s m).1 = .ok .returned → m.scopes.InCall
  cond : ∀ line e yes no, (exec fuel (.cond line e yes no) m).1 ≠ .ok .returned
  loop : ∀ line e body, (exec fuel (.loop line e body) m).1 ≠ .ok .returned
  /-- A statement that does not return leaves the result of the call as it is. -/
  result : ∀ s, (exec fuel s m).1 ≠ .ok .returned →
    (exec fuel s m).2.scopes.result? = m.scopes.result?
  /-- A call has a value if its body does not fail. -/
  ends : ∀ line callee args f start, StartsBody fuel line callee args m f start →
    ∀ flow m₁, execAll (exec fuel) f.body.stmts start = (.ok flow, m₁) →
      ∃ v m', eval (fuel + 1) (.call line callee args) m = (.ok v, m')
  /-- The value is `Null`, or it comes from the one `Return` that was reached. -/
  value : ∀ line callee args v m', eval (fuel + 1) (.call line callee args) m = (.ok v, m') ↔
    ∃ f start m₁, StartsBody fuel line callee args m f start ∧
      m' = leaveCall { m₁ with file := m.file } ∧
      (v = .null ∧ NoReturn fuel f.body.stmts start m₁ ∨
        OneReturn fuel f.body.stmts start v m₁)
  /-- Inside of a conditional or a loop of the body a `Return` fails, and the call with it. -/
  inside : ∀ line callee args f start, StartsBody fuel line callee args m f start →
    ∀ fuel' line' e m₁ v m₂, GetsTo true fuel f.body.stmts start (fuel' + 1) (.ret line' e) m₁ →
      eval fuel' e m₁ = (.ok v, m₂) →
      exec (fuel' + 1) (.ret line' e) m₁ =
          (.error (.failed (.runtime line' .returnOutsideFunction)), m₂) ∧
        ∃ files, (eval (fuel + 1) (.call line callee args) m).1 =
          .error (.failed ⟨.runtime line' .returnOutsideFunction, files⟩)
  /-- At the root a program fails or carries out each of its statements. -/
  root : m.scopes.depth = 1 → ∀ p, (∃ stop m', execute fuel p m = (.error stop, m')) ∨
    ∃ m', execute fuel p m = (.ok (), m') ∧ RunsThrough fuel p m m'

/-- **A `Return` works in the frame of a call only, and then once.**  A statement returns only in such
a frame, and a conditional or a loop returns in none.  A statement that does not return leaves the result
of the call as it is.

So a call has a value if its body does not fail.  Either all statements of the body were carried out
without reaching a `Return`, and the value is `Null`, or one `Return` was reached, in the body itself or
in blocks and imports of it; it gave the value, and nothing was carried out after it.  If a `Return` is
reached inside of a conditional or a loop of the body and its expression has a value, then it fails, and
the call with it.  At the root, a program fails or carries out each of its statements. -/
theorem return_discipline (fuel : Nat) (m : Machine) (hm : m.scopes.Built) : ReturnsOnce fuel m where
  inCall s h := returnsInCall_exec fuel s m _ hm.depth_pos (Prod.ext h rfl)
  cond line e yes no := exec_cond_ne_returned fuel line e yes no m
  loop line e body := exec_loop_ne_returned fuel line e body m
  result s := keepsResult_exec fuel s m hm.depth_pos
  ends line callee args f start hstart flow m₁ hbody := ⟨_, _, hstart.eval_of_ok hm hbody⟩
  value line callee args v m' := eval_call_eq_ok_iff hm
  inside line callee args f start hstart fuel' line' e m₁ v m₂ hgets heval := by
    obtain ⟨hret, files, hbody⟩ := hgets.ret_fails hstart.depth_pos heval
    exact ⟨hret, hstart.fails hm hbody⟩
  root := execute_at_root hm

/-- A function with a `Return` in a block, and with a statement behind it that would fail. -/
def returnsInBlock : Routine :=
  .mk 1 1 none [] (.mk 1 [.block (.mk 1 [.ret 1 (.bool 1 true)]), .expr 2 (.var 2 "x")])

/-- A function with a `Return` in a conditional. -/
def returnsInCond : Routine :=
  .mk 1 1 none [] (.mk 1 [.cond 1 (.bool 1 true) (.mk 1 [.ret 2 (.bool 2 true)]) none])

/-- The first function gives its value, and the second one fails. -/
theorem return_discipline_two_functions :
    Scopes.fresh.Built ∧
    ((eval 6 (.call 1 (.function 1 returnsInBlock) []) {}).1 = .ok (.bool true) ∧
      ∃ f start m₁, StartsBody 5 1 (.function 1 returnsInBlock) [] {} f start ∧
        (eval 6 (.call 1 (.function 1 returnsInBlock) []) {}).2 = leaveCall { m₁ with file := none } ∧
        (Value.bool true = .null ∧ NoReturn 5 f.body.stmts start m₁ ∨
          OneReturn 5 f.body.stmts start (.bool true) m₁)) ∧
    ∃ files, (eval 6 (.call 1 (.function 1 returnsInCond) []) {}).1 =
      .error (.failed ⟨.runtime 2 .returnOutsideFunction, files⟩) := by
  have hvalue : (eval 6 (.call 1 (.function 1 returnsInBlock) []) {}).1 = .ok (.bool true) := by
    with_unfolding_all rfl
  have hstart : StartsBody 5 1 (.function 1 returnsInCond) [] {} returnsInCond
      { Machine.openCall {} { callDepth := 1 } with file := none } :=
    ⟨by decide, [], { callDepth := 1 }, rfl, rfl⟩
  have hgets : GetsTo true 5 returnsInCond.body.stmts
      { Machine.openCall {} { callDepth := 1 } with file := none } 4 (.ret 2 (.bool 2 true)) _ :=
    .into (.cond (b := true) rfl) .here
  have hdiscipline := return_discipline 5 {} .fresh
  refine ⟨.fresh, ⟨hvalue, ?_⟩, ?_⟩
  · exact (hdiscipline.value _ _ _ _ _).1 (Prod.ext hvalue rfl)
  · exact (hdiscipline.inside _ _ _ _ _ hstart 3 2 _ _ _ _ hgets rfl).2

end Run

end TableScript
