import TableScript.Proofs.Evaluation.Returning

/-!
# Statements that are reached

`GetsTo inside fuel ss m fuel' s m'` says that carrying out the statements `ss` on the machine `m` comes
to carrying out `s` on `m'`.  The statements before it ended normally.  It may be one of `ss`, or stand
in a block, an import, a conditional or a loop among them (`Enters`); `inside` says whether a conditional
or a loop is around it.

How a statement ends that is reached says how the statements end that lead to it.  If it does not end
normally, they do not either (`GetsTo.not_normal`).  If it fails, they fail for the same cause
(`GetsTo.fails`), and if it returns, with no conditional or loop around it, they return at once
(`GetsTo.returns`).  A `Return` is reached at most once (`GetsTo.unique`), and statements that return
have come to one (`exists_getsTo_of_returned`).
-/

namespace TableScript

/-- Code does not change whether its frame is that of a call. -/
theorem Scopes.inCall_iff_of_change {s s' : Scopes} (h : s.Change Frame.Grown s') :
    s'.InCall ↔ s.InCall := by
  refine ⟨.of_change h, ?_⟩
  rintro ⟨f, hf, hcall⟩
  obtain ⟨f', hf', hgrown⟩ := h.top f hf
  exact ⟨f', hf', hgrown.isCall ▸ hcall⟩

namespace Run

variable {fuel fuel' : Nat} {s : Stmt} {ss : List Stmt} {m m' m₁ m₂ : Machine} {inside : Bool}

/-- Code of a file is run in that file and leaves the file that was running before. -/
theorem inFile_of_keeps {α : Type} {x : Run α} (hx : Keeps Frame.Grown x) (file : Option String)
    (hdepth : 0 < m.scopes.depth) :
    ∃ mark : Stop → Stop, (mark = id ∨ ∃ name, mark = Stop.inFile name) ∧
      inFile file x m = ((x { m with file }).1.mapError mark,
        { (x { m with file }).2 with file := m.file }) := by
  obtain ⟨mark, left, hmark, hrun⟩ := inFile_cases file x m
  have hfile := (hx.inFile file m hdepth).file
  rw [hrun] at hfile
  obtain rfl : left = m.file := hfile
  exact ⟨mark, hmark, hrun⟩

/-- Marking an error with a file does not change its cause. -/
theorem exists_files_of_mark {mark : Stop → Stop} (h : mark = id ∨ ∃ name, mark = Stop.inFile name)
    (cause : Cause) (files : List String) :
    ∃ files', mark (.failed ⟨cause, files⟩) = .failed ⟨cause, files'⟩ := by
  rcases h with rfl | ⟨name, rfl⟩
  · exact ⟨files, rfl⟩
  · exact ⟨name :: files, rfl⟩

/-! ### Turns of a loop -/

/-- A loop on `m` comes to a turn whose body starts on `m'`. -/
inductive Turns (condition : Run Bool) (body : Run Flow) : Nat → Machine → Machine → Prop
  | first {n m m₁} : condition m = (.ok true, m₁) → Turns condition body (n + 1) m m₁
  | later {n m m₁ m₂ m₃} : condition m = (.ok true, m₁) → body m₁ = (.ok .normal, m₂) →
      Turns condition body n m₂ m₃ → Turns condition body (n + 1) m m₃

namespace Turns

variable {condition : Run Bool} {body : Run Flow} {n : Nat}

/-- A turn that does not end normally is the last one. -/
theorem repeatWhile_eq (h : Turns condition body n m m₁) {r : Except Stop Flow}
    (hbody : body m₁ = (r, m₂)) (hr : r ≠ .ok .normal) :
    repeatWhile condition body n m = (r, m₂) := by
  induction h with
  | first hcondition =>
    rw [repeatWhile, Action.bind_of_ok hcondition]
    rcases r with stop | - | -
    · exact Action.bind_of_error hbody
    · exact absurd rfl hr
    · exact Action.bind_of_ok hbody
  | later hcondition hnormal _ ih =>
    rw [repeatWhile, Action.bind_of_ok hcondition]
    refine (Action.bind_of_ok hnormal).trans ?_
    exact ih hbody

theorem unique (h : Turns condition body n m m₁) (h' : Turns condition body n m m₂)
    (hlast : (body m₁).1 ≠ .ok .normal) (hlast' : (body m₂).1 ≠ .ok .normal) : m₁ = m₂ := by
  induction h with
  | first hcondition =>
    cases h' with
    | first hcondition' =>
      cases hcondition.symm.trans hcondition'
      rfl
    | later hcondition' hnormal =>
      -- there is a later turn only if this one ended normally
      cases hcondition.symm.trans hcondition'
      rw [hnormal] at hlast
      exact absurd rfl hlast
  | later hcondition hnormal _ ih =>
    cases h' with
    | first hcondition' =>
      cases hcondition.symm.trans hcondition'
      rw [hnormal] at hlast'
      exact absurd rfl hlast'
    | later hcondition' hnormal' hturns' =>
      cases hcondition.symm.trans hcondition'
      cases hnormal.symm.trans hnormal'
      exact ih hturns' hlast

theorem change (h : Turns condition body n m m₁) (hcondition : Keeps Frame.Grown condition)
    (hbody : Keeps Frame.Grown body) (hdepth : 0 < m.scopes.depth) : m.Change Frame.Grown m₁ := by
  induction h with
  | first hholds => exact hcondition.change hholds hdepth
  | later hholds hnormal _ ih =>
    have hchange := hcondition.change hholds hdepth
    have hfirst := hchange.trans (hbody.change hnormal (hchange.depth_pos hdepth))
    exact hfirst.trans (ih (hfirst.depth_pos hdepth))

end Turns

/-! ### Statements inside of others -/

/-- Carrying out the statement `s` on `m`, with one more unit of fuel, comes to the statements `ss`
inside of it, on `m'`.  The first argument says whether `s` opens a frame for them. -/
inductive Enters (fuel : Nat) : Bool → Stmt → Machine → List Stmt → Machine → Prop
  | block {body m} : Enters fuel false (.block body) m body.stmts m
  | get {line file program m} :
      Enters fuel false (.get line file program) m program { m with file := some file }
  | cond {line e yes no m b m₁} :
      evalBool (eval fuel) line e (enterFrame .block m) = (.ok b, m₁) →
      Enters fuel true (.cond line e yes no) m (branch yes no b) m₁
  | loop {line e body m m₁} :
      Turns (evalBool (eval fuel) line e) (execAll (exec fuel) body.stmts) fuel
        (enterFrame .block m) m₁ →
      Enters fuel true (.loop line e body) m body.stmts m₁

namespace Enters

theorem depth_pos_enterFrame (kind : FrameKind) (m : Machine) :
    0 < (enterFrame kind m).scopes.depth := by
  simp [enterFrame, Scopes.depth, Scopes.push]

/-- What a conditional or a loop does before it comes to its statements. -/
theorem change_of_frame (h : Enters fuel true s m ss m₁) :
    (enterFrame .block m).Change Frame.Grown m₁ := by
  have hdepth := depth_pos_enterFrame .block m
  cases h with
  | cond hcondition => exact (keeps_evalBool fuel _ _).grown.change hcondition hdepth
  | loop hturns => exact hturns.change (keeps_evalBool fuel _ _).grown (keeps_execAll fuel _) hdepth

theorem depth_pos (h : Enters fuel inside s m ss m₁) (hdepth : 0 < m.scopes.depth) :
    0 < m₁.scopes.depth := by
  cases inside with
  | true => exact h.change_of_frame.depth_pos (depth_pos_enterFrame .block m)
  | false =>
    cases h with
    | block => exact hdepth
    | get => exact hdepth

/-- In a frame that is opened by a statement, code is not in the frame of a call. -/
theorem inCall_iff (h : Enters fuel inside s m ss m₁) :
    m₁.scopes.InCall ↔ inside = false ∧ m.scopes.InCall := by
  cases inside with
  | true =>
    have hnot : ¬ m₁.scopes.InCall := fun hcall =>
      m.scopes.not_inCall_push (.of_change h.change_of_frame.scopes hcall)
    simp [hnot]
  | false =>
    cases h with
    | block => simp
    | get => simp

/-- If the statements inside do not end normally, the statement ends as they do. -/
theorem exec_fst (h : Enters fuel inside s m ss m₁) (hdepth : 0 < m.scopes.depth)
    {r : Except Stop Flow} (hinside : (execAll (exec fuel) ss m₁).1 = r) (hr : r ≠ .ok .normal) :
    ∃ mark : Stop → Stop, (mark = id ∨ ∃ name, mark = Stop.inFile name) ∧
      (exec (fuel + 1) s m).1 = r.mapError mark := by
  cases h with
  | block =>
    rw [exec, execRule]
    exact ⟨id, .inl rfl, by rw [mapError_id, hinside]⟩
  | get =>
    obtain ⟨mark, hmark, hrun⟩ := inFile_of_keeps (keeps_execAll fuel ss) (some _) hdepth
    rw [exec, execRule]
    exact ⟨mark, hmark, by rw [hrun, hinside]⟩
  | cond hcondition =>
    rw [exec, execRule]
    refine ⟨id, .inl rfl, ?_⟩
    show ((evalBool (eval fuel) _ _ >>= _) (enterFrame .block m)).1 = _
    rw [Action.bind_of_ok hcondition, mapError_id, hinside]
  | loop hturns =>
    rw [exec, execRule]
    refine ⟨id, .inl rfl, ?_⟩
    show (repeatWhile _ _ fuel (enterFrame .block m)).1 = _
    rw [hturns.repeatWhile_eq (Prod.ext hinside rfl) hr, mapError_id]

theorem exec_ne_normal (h : Enters fuel inside s m ss m₁) (hdepth : 0 < m.scopes.depth)
    (hinside : (execAll (exec fuel) ss m₁).1 ≠ .ok .normal) :
    (exec (fuel + 1) s m).1 ≠ .ok .normal := by
  obtain ⟨mark, -, hfst⟩ := h.exec_fst hdepth rfl hinside
  rw [hfst]
  generalize (execAll (exec fuel) ss m₁).1 = r at hinside
  cases r with
  | error stop => rintro ⟨⟩
  | ok flow => exact hinside

/-- Statements that return without a frame of their own. -/
theorem exec_of_returned (h : Enters fuel false s m ss m₁) (hdepth : 0 < m.scopes.depth)
    (hinside : execAll (exec fuel) ss m₁ = (.ok .returned, m₂)) :
    exec (fuel + 1) s m = (.ok .returned, { m₂ with file := m.file }) := by
  cases h with
  | @block body _ =>
    have hchange := (keeps_execAll fuel body.stmts).change hinside hdepth
    rw [exec, execRule, hinside, ← hchange.file]
  | get =>
    obtain ⟨mark, -, hrun⟩ := inFile_of_keeps (keeps_execAll fuel ss) (some _) hdepth
    rw [exec, execRule, hrun, hinside]
    rfl

theorem unique {inside' : Bool} {ss' : List Stmt} (h : Enters fuel inside s m ss m₁)
    (h' : Enters fuel inside' s m ss' m₂) (hlast : (execAll (exec fuel) ss m₁).1 ≠ .ok .normal)
    (hlast' : (execAll (exec fuel) ss' m₂).1 ≠ .ok .normal) :
    inside = inside' ∧ ss = ss' ∧ m₁ = m₂ := by
  cases h with
  | block =>
    cases h'
    exact ⟨rfl, rfl, rfl⟩
  | get =>
    cases h'
    exact ⟨rfl, rfl, rfl⟩
  | cond hcondition =>
    cases h' with
    | cond hcondition' =>
      cases hcondition.symm.trans hcondition'
      exact ⟨rfl, rfl, rfl⟩
  | loop hturns =>
    cases h' with
    | loop hturns' => exact ⟨rfl, rfl, hturns.unique hturns' hlast hlast'⟩

end Enters

/-! ### Statements that are reached -/

/-- Carrying out `ss` on `m` comes to carrying out `s` on `m'`, with or without a conditional or a loop
around it. -/
inductive GetsTo : Bool → Nat → List Stmt → Machine → Nat → Stmt → Machine → Prop
  | here {fuel : Nat} {s : Stmt} {ss : List Stmt} {m : Machine} :
      GetsTo false fuel (s :: ss) m fuel s m
  | next {inside : Bool} {fuel fuel' : Nat} {s s' : Stmt} {ss : List Stmt} {m m₁ m' : Machine} :
      exec fuel s m = (.ok .normal, m₁) → GetsTo inside fuel ss m₁ fuel' s' m' →
      GetsTo inside fuel (s :: ss) m fuel' s' m'
  | into {inside inside' : Bool} {fuel fuel' : Nat} {s s' : Stmt} {ss inner : List Stmt}
      {m m₁ m' : Machine} :
      Enters fuel inside s m inner m₁ → GetsTo inside' fuel inner m₁ fuel' s' m' →
      GetsTo (inside || inside') (fuel + 1) (s :: ss) m fuel' s' m'

/-- A statement that does not end normally is the last one. -/
theorem execAll_cons_of_ne {r : Except Stop Flow} (h : exec fuel s m = (r, m₁)) (hr : r ≠ .ok .normal)
    (ss : List Stmt) : execAll (exec fuel) (s :: ss) m = (r, m₁) := by
  rw [execAll]
  rcases r with stop | - | -
  · exact Action.bind_of_error h
  · exact absurd rfl hr
  · exact Action.bind_of_ok h

theorem execAll_cons_of_normal (h : exec fuel s m = (.ok .normal, m₁)) (ss : List Stmt) :
    execAll (exec fuel) (s :: ss) m = execAll (exec fuel) ss m₁ := by
  rw [execAll]
  exact Action.bind_of_ok h

theorem change_of_exec {r : Except Stop Flow} (h : exec fuel s m = (r, m₁))
    (hdepth : 0 < m.scopes.depth) : m.Change Frame.Grown m₁ :=
  ((keeps_eval_exec fuel).2 s).change h hdepth

theorem depth_pos_of_exec {r : Except Stop Flow} (h : exec fuel s m = (r, m₁))
    (hdepth : 0 < m.scopes.depth) : 0 < m₁.scopes.depth :=
  (change_of_exec h hdepth).depth_pos hdepth

namespace GetsTo

theorem depth_pos (h : GetsTo inside fuel ss m fuel' s m') (hdepth : 0 < m.scopes.depth) :
    0 < m'.scopes.depth := by
  induction h with
  | here => exact hdepth
  | next hnormal _ ih => exact ih (depth_pos_of_exec hnormal hdepth)
  | into henters _ ih => exact ih (henters.depth_pos hdepth)

/-- A statement is reached in the frame of the call, unless a conditional or a loop is around it. -/
theorem inCall_iff (h : GetsTo inside fuel ss m fuel' s m') (hdepth : 0 < m.scopes.depth) :
    m'.scopes.InCall ↔ inside = false ∧ m.scopes.InCall := by
  induction h with
  | here => simp
  | next hnormal _ ih =>
    have hchange := change_of_exec hnormal hdepth
    rw [ih (hchange.depth_pos hdepth), Scopes.inCall_iff_of_change hchange.scopes]
  | into henters _ ih =>
    rw [ih (henters.depth_pos hdepth), henters.inCall_iff, Bool.or_eq_false_iff]
    tauto

/-- Statements that come to one that does not end normally do not end normally. -/
theorem not_normal (h : GetsTo inside fuel ss m fuel' s m') (hdepth : 0 < m.scopes.depth)
    (hs : (exec fuel' s m').1 ≠ .ok .normal) : (execAll (exec fuel) ss m).1 ≠ .ok .normal := by
  induction h with
  | here =>
    rw [execAll_cons_of_ne rfl hs]
    exact hs
  | next hnormal _ ih =>
    rw [execAll_cons_of_normal hnormal]
    exact ih (depth_pos_of_exec hnormal hdepth) hs
  | into henters _ ih =>
    have hexec := henters.exec_ne_normal hdepth (ih (henters.depth_pos hdepth) hs)
    rw [execAll_cons_of_ne rfl hexec]
    exact hexec

/-- Statements that come to one that fails do so for the same cause. -/
theorem fails (h : GetsTo inside fuel ss m fuel' s m') (hdepth : 0 < m.scopes.depth) {cause : Cause}
    {files : List String} (hs : (exec fuel' s m').1 = .error (.failed ⟨cause, files⟩)) :
    ∃ files', (execAll (exec fuel) ss m).1 = .error (.failed ⟨cause, files'⟩) := by
  induction h with
  | here =>
    rw [execAll_cons_of_ne rfl (by rw [hs]; rintro ⟨⟩)]
    exact ⟨files, hs⟩
  | next hnormal _ ih =>
    rw [execAll_cons_of_normal hnormal]
    exact ih (depth_pos_of_exec hnormal hdepth) hs
  | @into _ _ fuel _ s _ _ _ m _ _ henters _ ih =>
    obtain ⟨files', hinside⟩ := ih (henters.depth_pos hdepth) hs
    obtain ⟨mark, hmark, hfst⟩ := henters.exec_fst hdepth hinside (by rintro ⟨⟩)
    obtain ⟨files'', hmarked⟩ := exists_files_of_mark hmark cause files'
    have hexec : (exec (fuel + 1) s m).1 = .error (.failed ⟨cause, files''⟩) := by
      rw [hfst, Except.mapError, hmarked]
    rw [execAll_cons_of_ne rfl (by rw [hexec]; rintro ⟨⟩)]
    exact ⟨files'', hexec⟩

/-- Statements that come to one that returns do so at once, if no conditional and no loop is around
it. -/
theorem returns (h : GetsTo inside fuel ss m fuel' s m') (hinside : inside = false)
    (hdepth : 0 < m.scopes.depth) (hs : exec fuel' s m' = (.ok .returned, m₁)) :
    execAll (exec fuel) ss m = (.ok .returned, { m₁ with file := m.file }) := by
  induction h with
  | here => rw [execAll_cons_of_ne hs (by rintro ⟨⟩), ← (change_of_exec hs hdepth).file]
  | next hnormal _ ih =>
    have hchange := change_of_exec hnormal hdepth
    rw [execAll_cons_of_normal hnormal, ih hinside (hchange.depth_pos hdepth) hs, hchange.file]
  | into henters _ ih =>
    obtain ⟨rfl, hinner⟩ := Bool.or_eq_false_iff.1 hinside
    have hlist := ih hinner (henters.depth_pos hdepth) hs
    rw [execAll_cons_of_ne (henters.exec_of_returned hdepth hlist) (by rintro ⟨⟩)]

end GetsTo

/-! ### Reaching a `Return` -/

theorem exec_ret_ne_normal (fuel line : Nat) (e : Expr) (m : Machine) :
    (exec fuel (.ret line e) m).1 ≠ .ok .normal := by
  cases fuel with
  | zero =>
    rw [exec]
    rintro ⟨⟩
  | succ fuel =>
    rw [exec, execRule]
    intro h
    obtain ⟨_, _, -, hrest⟩ := Action.bind_eq_ok_iff.1 (Prod.ext h rfl)
    obtain ⟨_, _, -, hpure⟩ := Action.bind_eq_ok_iff.1 hrest
    cases hpure

/-- Statements that come to a `Return` do not end normally. -/
theorem GetsTo.ret_not_normal {line : Nat} {e : Expr}
    (h : GetsTo inside fuel ss m fuel' (.ret line e) m') (hdepth : 0 < m.scopes.depth) :
    (execAll (exec fuel) ss m).1 ≠ .ok .normal :=
  h.not_normal hdepth (exec_ret_ne_normal fuel' line e m')

/-- A `Return` is reached at most once. -/
theorem GetsTo.unique {inside' : Bool} {fuel'' line line' : Nat} {e e' : Expr}
    (h : GetsTo inside fuel ss m fuel' (.ret line e) m₁)
    (h' : GetsTo inside' fuel ss m fuel'' (.ret line' e') m₂) (hdepth : 0 < m.scopes.depth) :
    inside' = inside ∧ fuel'' = fuel' ∧ line' = line ∧ e' = e ∧ m₂ = m₁ := by
  generalize hs : Stmt.ret line e = s at h
  induction h generalizing inside' with
  | here =>
    subst hs
    cases h' with
    | here => exact ⟨rfl, rfl, rfl, rfl, rfl⟩
    | next hnormal => exact absurd (congrArg Prod.fst hnormal) (exec_ret_ne_normal _ _ _ _)
    | into henters => cases henters
  | next hnormal _ ih =>
    cases h' with
    | here => exact absurd (congrArg Prod.fst hnormal) (exec_ret_ne_normal _ _ _ _)
    | next hnormal' hnext' =>
      cases hnormal.symm.trans hnormal'
      exact ih hnext' (depth_pos_of_exec hnormal hdepth) hs
    | into henters' hinner' =>
      -- the statement ended normally, so no `Return` was reached in it
      have hinside := hinner'.ret_not_normal (henters'.depth_pos hdepth)
      exact absurd (congrArg Prod.fst hnormal) (henters'.exec_ne_normal hdepth hinside)
  | into henters hinner ih =>
    subst hs
    have hinside := hinner.ret_not_normal (henters.depth_pos hdepth)
    cases h' with
    | here => cases henters
    | next hnormal' =>
      exact absurd (congrArg Prod.fst hnormal') (henters.exec_ne_normal hdepth hinside)
    | into henters' hinner' =>
      have hinside' := hinner'.ret_not_normal (henters'.depth_pos hdepth)
      obtain ⟨rfl, rfl, rfl⟩ := henters.unique henters' hinside hinside'
      obtain ⟨rfl, hrest⟩ := ih hinner' (henters.depth_pos hdepth) rfl
      exact ⟨rfl, hrest⟩

theorem returnsInCall_stmts (fuel : Nat) (ss : List Stmt) :
    ReturnsInCall (execAll (exec fuel) ss) :=
  returnsInCall_execAll (returnsInCall_exec fuel) ss

/-- A conditional does not return. -/
theorem exec_cond_ne_returned (fuel line : Nat) (e : Expr) (yes : Block) (no : Option Block)
    (m : Machine) : (exec fuel (.cond line e yes no) m).1 ≠ .ok .returned := by
  cases fuel with
  | zero =>
    rw [exec]
    rintro ⟨⟩
  | succ fuel =>
    rw [exec, execRule]
    apply inFrame_ne_returned
    exact returnsInCall_bind (keeps_evalBool fuel line e).grown fun b => returnsInCall_stmts fuel _

/-- A loop does not return. -/
theorem exec_loop_ne_returned (fuel line : Nat) (e : Expr) (body : Block) (m : Machine) :
    (exec fuel (.loop line e body) m).1 ≠ .ok .returned := by
  cases fuel with
  | zero =>
    rw [exec]
    rintro ⟨⟩
  | succ fuel =>
    rw [exec, execRule]
    apply inFrame_ne_returned
    exact returnsInCall_repeatWhile (keeps_evalBool fuel line e).grown (keeps_execAll fuel _)
      (returnsInCall_stmts fuel _) fuel

/-- A statement that returns is a `Return`, or statements inside of it return that have no frame of
their own. -/
theorem exec_returned_cases (hdepth : 0 < m.scopes.depth)
    (h : exec (fuel + 1) s m = (.ok .returned, m')) :
    (∃ line e, s = .ret line e) ∨ ∃ inner m₁ m₂, Enters fuel false s m inner m₁ ∧
      execAll (exec fuel) inner m₁ = (.ok .returned, m₂) := by
  cases s with
  | assign line how target value =>
    rw [exec, execRule] at h
    obtain ⟨_, _, -, hrest⟩ := Action.bind_eq_ok_iff.1 h
    cases hrest
  | block body =>
    rw [exec, execRule] at h
    exact .inr ⟨_, _, _, .block, h⟩
  | get line file program =>
    obtain ⟨mark, -, hrun⟩ := inFile_of_keeps (keeps_execAll fuel program) (some file) hdepth
    rw [exec, execRule, hrun] at h
    refine .inr ⟨_, _, _, .get, Prod.ext ?_ rfl⟩
    have hvalue := congrArg Prod.fst h
    rcases hr : (execAll (exec fuel) program { m with file := some file }).1 with stop | flow
    · rw [hr] at hvalue
      cases hvalue
    · rw [hr] at hvalue
      exact hvalue
  | cond line e yes no =>
    exact absurd (congrArg Prod.fst h) (exec_cond_ne_returned _ line e yes no m)
  | loop line e body => exact absurd (congrArg Prod.fst h) (exec_loop_ne_returned _ line e body m)
  | ret line e => exact .inl ⟨line, e, rfl⟩
  | expr line e =>
    rw [exec, execRule] at h
    obtain ⟨_, _, -, hrest⟩ := Action.bind_eq_ok_iff.1 h
    cases hrest

/-- Statements that return have come to a `Return`, with no conditional and no loop around it, and they
end where it does. -/
theorem exists_getsTo_of_returned (hdepth : 0 < m.scopes.depth)
    (h : execAll (exec fuel) ss m = (.ok .returned, m')) :
    ∃ fuel' line e m₁ m₂, GetsTo false fuel ss m (fuel' + 1) (.ret line e) m₁ ∧
      exec (fuel' + 1) (.ret line e) m₁ = (.ok .returned, m₂) ∧ m' = { m₂ with file := m.file } := by
  -- by induction on fuel, since what stands inside of a statement has one unit less
  induction fuel generalizing ss m m' with
  | zero =>
    cases ss with
    | nil => cases h
    | cons s ss =>
      rw [execAll, exec] at h
      cases h
  | succ fuel ih =>
    induction ss generalizing m m' with
    | nil => cases h
    | cons s ss ihs =>
      obtain ⟨flow, m₁, hfirst, hrest⟩ := Action.bind_eq_ok_iff.1 h
      have hchange := change_of_exec hfirst hdepth
      cases flow with
      | normal =>
        obtain ⟨fuel', line, e, m₂, m₃, hgets, hret, rfl⟩ := ihs (hchange.depth_pos hdepth) hrest
        refine ⟨fuel', line, e, m₂, m₃, .next hfirst hgets, hret, ?_⟩
        rw [hchange.file]
      | returned =>
        cases hrest
        rcases exec_returned_cases hdepth hfirst with
          ⟨line, e, rfl⟩ | ⟨inner, m₂, m₃, henters, hinner⟩
        · refine ⟨fuel, line, e, m, m', .here, hfirst, ?_⟩
          rw [← hchange.file]
        · obtain ⟨fuel', line, e, m₄, m₅, hgets, hret, rfl⟩ := ih (henters.depth_pos hdepth) hinner
          refine ⟨fuel', line, e, m₄, m₅, .into henters hgets, hret, ?_⟩
          have hend := henters.exec_of_returned hdepth hinner
          exact congrArg Prod.snd (hfirst.symm.trans hend)

end Run

end TableScript
