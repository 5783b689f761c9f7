import TableScript.Proofs.Evaluation.ExtraFrame

/-!
# What a call sees

A call opens its frame first, and evaluates the function that is called and its arguments inside of it.
That makes no difference to them (`operands_enterCall`): the frame is empty until all of them are
evaluated, and an expression pays no attention to an empty frame.  Then the parameters are bound, pair by
pair, and nothing else is in the frame when the body starts (`bindParams_openCall`).

`operands_of_caller` puts this together.  It says what a call does that is not beyond the limit of calls,
from the function and the arguments as the code around the call sees them.
-/

namespace TableScript

/-- Opens the frame of a call, with `names` bound in it. -/
def Machine.openCall (names : Dictionary String Value) (m : Machine) : Machine :=
  { m with scopes := ⟨m.scopes.frames.push ⟨names, some m.scopes.current, .function .null⟩,
    m.scopes.frames.size⟩ }

/-! ### Parameters -/

/-- Parameters with their arguments, added to names that are bound already. -/
def bindAll : List String → List Value → Dictionary String Value → Dictionary String Value
  | name :: names, v :: vs, d => bindAll names vs (d.insert name v)
  | _, _, d => d

/-- Of a repeated parameter the last argument counts. -/
theorem get?_bindAll (names : List String) (vs : List Value) (d : Dictionary String Value)
    (x : String) :
    (bindAll names vs d).get? x = ((names.zip vs).reverse.lookup x).or (d.get? x) := by
  induction names generalizing vs d with
  | nil => rfl
  | cons name names ih =>
    cases vs with
    | nil => rfl
    | cons v vs =>
      rw [bindAll, ih, List.zip_cons_cons, List.reverse_cons, List.lookup_append, Option.or_assoc,
        Dictionary.get?_insert]
      congr 1
      by_cases hx : x = name
      · simp [hx]
      · have hne : compare x name ≠ .eq := fun h => hx (Std.LawfulEqOrd.eq_of_compare h)
        simp [List.lookup_cons, beq_false_of_ne hx, hne]

/-- As many parameters are bound as there are arguments. -/
theorem contains_bindAll (names : List String) (vs : List Value) (d : Dictionary String Value)
    (x : String) :
    (bindAll names vs d).contains x ↔
      x ∈ names.take (min names.length vs.length) ∨ d.contains x := by
  induction names generalizing vs d with
  | nil => simp [bindAll]
  | cons name names ih =>
    cases vs with
    | nil => simp [bindAll]
    | cons v vs =>
      rw [bindAll, ih, Dictionary.contains_insert, List.length_cons, List.length_cons,
        Nat.succ_min_succ, List.take_succ_cons, List.mem_cons]
      tauto

namespace Run

theorem define_openCall (name : String) (v : Value) (names : Dictionary String Value) (m : Machine) :
    define name v (m.openCall names) = (.ok (), m.openCall (names.insert name v)) := by
  have hlast := Scopes.modify_last m.scopes.frames.toList
    ⟨names, some m.scopes.current, .function .null⟩
    fun f => { f with names := f.names.insert name v }
  obtain ⟨⟨⟨frames⟩, current⟩, tables, limits, callDepth, file⟩ := m
  simp only [Machine.openCall, define, Action.modify_apply, Scopes.define, Scopes.bindAt,
    List.push_toArray, List.size_toArray, List.modify_toArray]
  rw [hlast]

/-- Binding parameters in the frame of a call. -/
theorem bindParams_openCall (params : List String) (vs : List Value) (names : Dictionary String Value)
    (m : Machine) :
    bindParams params vs (m.openCall names) = (.ok (), m.openCall (bindAll params vs names)) := by
  induction params generalizing vs names with
  | nil => rfl
  | cons name params ih =>
    cases vs with
    | nil => rfl
    | cons v vs =>
      rw [bindParams, step_self, Action.bind_of_ok (define_openCall name v names m), ih, bindAll]

/-! ### Operands -/

/-- The function that is called, and the values of its arguments from left to right. -/
def operands (eval : Expr → Run Value) (line : Nat) (callee : Expr) (args : List Expr) :
    Run (Routine × List Value) := do
  let f ← evalRoutine eval line callee
  let vs ← evalAll eval args
  pure (f, vs)

/-- What a call does when its parameters are bound. -/
def runBody (fuel : Nat) (f : Routine) : Run Value := do
  let _ ← inFile f.file (execAll (exec fuel) f.body.stmts)
  result

/-- A call, in three parts. -/
theorem eval_call (fuel line : Nat) (callee : Expr) (args : List Expr) :
    eval (fuel + 1) (.call line callee args) = inCall line (do
      let c ← operands (eval fuel) line callee args
      bindParams c.1.params c.2
      runBody fuel c.1) := by
  rw [eval, evalRule]
  congr 1
  funext m
  simp only [callBody, callRoutine, operands, runBody, step_self, Action.bind_apply]
  rcases evalRoutine (eval fuel) line callee m with ⟨_ | f, m₁⟩
  · rfl
  · simp only
    rcases evalAll (eval fuel) args m₁ with ⟨_ | vs, m₂⟩
    · rfl
    · rfl

theorem length_of_evalAll {eval : Expr → Run Value} {es : List Expr} {vs : List Value}
    {m m' : Machine} (h : evalAll eval es m = (.ok vs, m')) : vs.length = es.length := by
  induction es generalizing vs m with
  | nil =>
    cases h
    rfl
  | cons e es ih =>
    obtain ⟨v, m₁, -, hrest⟩ := Action.bind_eq_ok_iff.1 h
    obtain ⟨ws, m₂, hws, hpure⟩ := Action.bind_eq_ok_iff.1 hrest
    cases hpure
    rw [List.length_cons, List.length_cons, ih hws]

theorem length_of_operands {eval : Expr → Run Value} {line : Nat} {callee : Expr} {args : List Expr}
    {f : Routine} {vs : List Value} {m m' : Machine}
    (h : operands eval line callee args m = (.ok (f, vs), m')) : vs.length = args.length := by
  obtain ⟨_, m₁, -, hrest⟩ := Action.bind_eq_ok_iff.1 h
  obtain ⟨ws, m₂, hws, hpure⟩ := Action.bind_eq_ok_iff.1 hrest
  cases hpure
  exact length_of_evalAll hws

theorem keeps_operands (fuel line : Nat) (callee : Expr) (args : List Expr) :
    Keeps Frame.Kept (operands (eval fuel) line callee args) := by
  refine Keeps.bind (keeps_evalAs fuel line callee Value.toRoutine) fun f => ?_
  exact (keeps_evalAll fuel args).bind fun vs => keeps_pure _

section Passing

variable {α : Type} {part : Part} (kind : FrameKind)

theorem passes_eval (fuel : Nat) (e : Expr) :
    Passes kind .expression Value Eq (eval fuel e) (eval fuel e) := by
  have hwalk := ((parametric_passes kind).eval_exec fuel).1 ⟨none, false⟩ e fun _ _ => trivial
  rw [Nat.zero_add, Expr.relabel_id] at hwalk
  exact hwalk.mono fun v v' => Comparison.related_iff_eq.1

theorem passes_check (line : Nat) (r : Except RuntimeError α) :
    Passes kind part α Eq (check line r) (check line r) := by
  have hline : (Comparison.terms {}).lines .other line line := ⟨⟨⟨none, false⟩, trivial⟩, rfl⟩
  cases r with
  | ok a => exact (parametric_passes kind).pure rfl
  | error e => exact (parametric_passes kind).failAt hline e

theorem passes_evalAll (fuel : Nat) (es : List Expr) :
    Passes kind .expression (List Value) Eq (evalAll (eval fuel) es) (evalAll (eval fuel) es) := by
  induction es with
  | nil => exact (parametric_passes kind).pure rfl
  | cons e es ih =>
    refine (passes_eval kind fuel e).bind ?_
    rintro v _ rfl
    refine ih.bind ?_
    rintro vs _ rfl
    exact (parametric_passes kind).pure rfl

theorem passes_operands (fuel line : Nat) (callee : Expr) (args : List Expr) :
    Passes kind .expression (Routine × List Value) Eq (operands (eval fuel) line callee args)
      (operands (eval fuel) line callee args) := by
  have hroutine : Passes kind .expression Routine Eq (evalRoutine (eval fuel) line callee)
      (evalRoutine (eval fuel) line callee) := by
    refine (passes_eval kind fuel callee).bind ?_
    rintro v _ rfl
    exact passes_check kind line _
  refine hroutine.bind ?_
  rintro f _ rfl
  refine (passes_evalAll kind fuel args).bind ?_
  rintro vs _ rfl
  exact (parametric_passes kind).pure rfl

end Passing

/-! ### Calls -/

/-- Leaving a call without having done anything in its frame. -/
theorem leaveCall_enterFrame (kind : FrameKind) {m : Machine} (hdepth : 0 < m.scopes.depth) :
    leaveCall (enterFrame kind m) = { m with callDepth := m.callDepth - 1 } := by
  have hpop : (m.scopes.push kind).pop.2 = m.scopes := by
    rw [Scopes.Change.pop_eq hdepth (.refl _)]
    simp [Scopes.push]
  show { m with scopes := (m.scopes.push kind).pop.2, callDepth := m.callDepth - 1 } = _
  rw [hpop]

section Call

variable {fuel line : Nat} {callee : Expr} {args : List Expr} {m m₁ : Machine}

/-- A call that the limits allow. -/
theorem eval_call_apply (hroom : m.callDepth < m.limits.callDepth) :
    eval (fuel + 1) (.call line callee args) m = Action.between enterCall leaveCall (do
      let c ← operands (eval fuel) line callee args
      bindParams c.1.params c.2
      runBody fuel c.1) m := by
  rw [eval_call]
  exact if_neg (Nat.not_le.2 hroom)

/-- The operands are evaluated in the frame of the call as in the frame around it. -/
theorem operands_enterCall (fuel line : Nat) (callee : Expr) (args : List Expr)
    (hm : m.scopes.Built) :
    operands (eval fuel) line callee args (enterCall m) =
      ((operands (eval fuel) line callee args { m with callDepth := m.callDepth + 1 }).1,
        enterFrame (.function .null)
          (operands (eval fuel) line callee args { m with callDepth := m.callDepth + 1 }).2) :=
  (passes_operands (.function .null) fuel line callee args).apply_enterFrame
    (m := { m with callDepth := m.callDepth + 1 }) hm

theorem eval_call_of_error {stop : Stop} (hm : m.scopes.Built)
    (hroom : m.callDepth < m.limits.callDepth)
    (h : operands (eval fuel) line callee args { m with callDepth := m.callDepth + 1 } =
      (.error stop, m₁)) :
    eval (fuel + 1) (.call line callee args) m =
      (.error stop, { m₁ with callDepth := m.callDepth }) := by
  have hkeeps := (keeps_operands fuel line callee args).change h hm.depth_pos
  have hinside := operands_enterCall fuel line callee args hm
  rw [h] at hinside
  rw [eval_call_apply hroom, Action.between_apply, Action.bind_of_error hinside]
  simp only
  rw [leaveCall_enterFrame _ (hkeeps.depth_pos hm.depth_pos), hkeeps.callDepth, Nat.add_sub_cancel]

theorem eval_call_of_ok {f : Routine} {vs : List Value} (hm : m.scopes.Built)
    (hroom : m.callDepth < m.limits.callDepth)
    (h : operands (eval fuel) line callee args { m with callDepth := m.callDepth + 1 } =
      (.ok (f, vs), m₁)) :
    eval (fuel + 1) (.call line callee args) m =
      Action.between (Machine.openCall (bindAll f.params vs {})) leaveCall (runBody fuel f) m₁ := by
  have hinside := operands_enterCall fuel line callee args hm
  rw [h] at hinside
  have hbound : bindParams f.params vs (enterFrame (.function .null) m₁) =
      (.ok (), m₁.openCall (bindAll f.params vs {})) := bindParams_openCall f.params vs {} m₁
  rw [eval_call_apply hroom, Action.between_apply, Action.bind_of_ok hinside,
    Action.bind_of_ok hbound, Action.between_apply]

end Call

/-- **A call sees its function and its arguments as the code around it does.**  An expression does in a
new frame what it does outside of it, and leaves the frame as it was opened.  So though a call opens its
frame first, the function and its arguments, from left to right, are what they are in the frame around
the call, one call deeper.  If one of them fails, the call fails with that, and nothing else is done.  If
not, the body starts in a frame that binds the parameters that there are arguments for and nothing else,
of a repeated parameter the last. -/
theorem operands_of_caller (fuel : Nat) (m : Machine) (hm : m.scopes.Built) :
    (∀ kind e, eval fuel e (enterFrame kind m) =
      ((eval fuel e m).1, enterFrame kind (eval fuel e m).2)) ∧
    ∀ line callee args, m.callDepth < m.limits.callDepth →
      (∀ stop m₁,
        operands (eval fuel) line callee args { m with callDepth := m.callDepth + 1 } =
          (.error stop, m₁) →
        eval (fuel + 1) (.call line callee args) m =
          (.error stop, { m₁ with callDepth := m.callDepth })) ∧
      ∀ f vs m₁,
        operands (eval fuel) line callee args { m with callDepth := m.callDepth + 1 } =
          (.ok (f, vs), m₁) →
        ∃ names : Dictionary String Value,
          (∀ x, names.contains x ↔ x ∈ f.params.take (min f.params.length args.length)) ∧
          (∀ x, names.get? x = (f.params.zip vs).reverse.lookup x) ∧
          eval (fuel + 1) (.call line callee args) m =
            Action.between (Machine.openCall names) leaveCall (runBody fuel f) m₁ := by
  refine ⟨fun kind e => (passes_eval kind fuel e).apply_enterFrame hm, ?_⟩
  intro line callee args hroom
  refine ⟨fun stop m₁ h => eval_call_of_error hm hroom h, fun f vs m₁ h => ?_⟩
  refine ⟨bindAll f.params vs {}, fun x => ?_, fun x => ?_, eval_call_of_ok hm hroom h⟩
  · rw [contains_bindAll, length_of_operands h]
    exact or_iff_left (by rintro ⟨⟩)
  · rw [get?_bindAll]
    exact Option.or_none

/-- A function with a repeated parameter and one more. -/
def repeatsParam : Routine := .mk 1 1 none ["a", "a", "b"] (.mk 1 [.ret 1 (.var 1 "a")])

/-- A machine on which the name of that parameter is bound. -/
def bindsParam : Machine := { scopes := Scopes.fresh.define "a" (.bool true) }

/-- The second argument is the value that the name has outside, and not the first argument. -/
theorem operands_of_caller_repeatsParam :
    bindsParam.scopes.Built ∧ bindsParam.callDepth < bindsParam.limits.callDepth ∧
    operands (eval 3) 1 (.function 1 repeatsParam) [.bool 1 false, .var 1 "a"]
        { bindsParam with callDepth := 1 } =
      (.ok (repeatsParam, [.bool false, .bool true]), { bindsParam with callDepth := 1 }) ∧
    ∃ names : Dictionary String Value,
      (∀ x, names.contains x ↔ x ∈ ["a", "a"]) ∧
      (∀ x, names.get? x = [("a", Value.bool true), ("a", .bool false)].lookup x) ∧
      eval 4 (.call 1 (.function 1 repeatsParam) [.bool 1 false, .var 1 "a"]) bindsParam =
        Action.between (Machine.openCall names) leaveCall (runBody 3 repeatsParam)
          { bindsParam with callDepth := 1 } := by
  have hbuilt : bindsParam.scopes.Built := .define "a" _ .fresh
  have hroom : bindsParam.callDepth < bindsParam.limits.callDepth := by decide
  have hoperands : operands (eval 3) 1 (.function 1 repeatsParam) [.bool 1 false, .var 1 "a"]
      { bindsParam with callDepth := 1 } =
        (.ok (repeatsParam, [.bool false, .bool true]), { bindsParam with callDepth := 1 }) := by
    with_unfolding_all rfl
  exact ⟨hbuilt, hroom, hoperands,
    ((operands_of_caller 3 bindsParam hbuilt).2 1 _ _ hroom).2 _ _ _ hoperands⟩

end Run

end TableScript
