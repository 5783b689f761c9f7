import TableScript.Proofs.Evaluation.Following
import TableScript.Proofs.Program.Raising

/-!
# Lines are carried along

Running code on other lines is running the code and changing the lines in what comes of it: in the error,
if there is one, and in the functions that the machine holds (`execute_ofLine`).

So if one text moves down by `k` lines, then of what its code does nothing changes but the lines of its
own nodes, which are raised by `k`.  For both runs come from a run in which those lines are marked
(`executeMarked`): one by taking the marks off, and the other by raising the marked lines as well
(`execute_eq_unmark`, `execute_raised_eq_unmark`).
-/

namespace TableScript

/-- An error on another line, whatever text it is about. -/
def Error.atLine (f : Nat → Nat) (e : Error) : Error := { e with cause := e.cause.mapLine f }

/-- A failure on another line. -/
def Stop.atLine (f : Nat → Nat) : Stop → Stop
  | .failed e => .failed (e.atLine f)
  | .outOfFuel => .outOfFuel

theorem Stop.atLine_inFile (f : Nat → Nat) (name : String) (s : Stop) :
    (s.inFile name).atLine f = (s.atLine f).inFile name := by
  cases s with
  | failed e => rfl
  | outOfFuel => rfl

/-! ### Machines -/

/-- Marking a value and taking the marks off. -/
theorem Value.relabel_moved_fixed (k : Nat) (v : Value) :
    (v.relabel .fixed ()).relabel (.moved k) () = v := by
  cases v with
  | function f =>
    rw [Value.relabel, Value.relabel, f.relabel_relabel,
      f.relabel_congr (q := ()) (Relabeling.alike_moved_after_fixed k) trivial, f.relabel_id]
  | _ => rfl

namespace Machine

/-- A machine that holds functions with other positions. -/
def relabel {π : Type} (g : Relabeling π) (p : π) (m : Machine) : Machine :=
  { m with
    scopes := m.scopes.mapValues (Value.relabel g p)
    tables := m.tables.mapValues (Value.relabel g p) }

theorem relabel_moved_fixed (k : Nat) (m : Machine) :
    (m.relabel .fixed ()).relabel (.moved k) () = m := by
  obtain ⟨scopes, tables, limits, callDepth, file⟩ := m
  have hid : (fun v : Value => v) = Value.relabel .id () := funext fun v => v.relabel_id.symm
  simp only [relabel, Scopes.mapValues_mapValues, Tables.mapValues_mapValues,
    Value.relabel_moved_fixed, hid, Scopes.mapValues_relabel_id, Tables.mapValues_relabel_id]

end Machine

/-! ### Runs -/

/-- The same on other lines. -/
def Likeness.onLines (f : Nat → Nat) : Likeness (Comparison.terms { relabeling := .ofLine f }) where
  same s s' := s' = s.atLine f

theorem Likeness.uniform_onLines (f : Nat → Nat) : (onLines f).Uniform where
  nodes _ := trivial
  known _ := trivial
  fresh _ := trivial
  mark _ _ := id
  mark' _ _ := id
  second _ := id
  failure hline _ := by rw [hline.2]; rfl
  fuel := .inr ⟨rfl, rfl⟩
  calls h := .inl (congrArg Limits.callDepth h.symm)
  depth h := h

namespace Run

theorem parametric_onLines (f : Nat → Nat) :
    Parametric { relabeling := .ofLine f } (Follows (Likeness.onLines f)) := by
  refine parametric_follows (Likeness.uniform_onLines f) fun {_ _ _ _ _ file file'} hfile hx => ?_
  obtain rfl : file' = file := by cases hfile <;> rfl
  refine hx.inFile_of_same (Likeness.uniform_onLines f).toLawful rfl (fun name s s' hs => ?_) file'
  rw [show s' = s.atLine f from hs]
  exact (s.atLine_inFile f name).symm

/-- **Lines are carried along.**  Changing the lines of all code before a run is as good as changing
them after it. -/
theorem execute_ofLine (f : Nat → Nat) (fuel : Nat) (p : Program) (m : Machine) :
    execute fuel (relabelAll (.ofLine f) () p) (m.relabel (.ofLine f) ()) =
      ((execute fuel p m).1.mapError (Stop.atLine f), (execute fuel p m).2.relabel (.ofLine f) ()) := by
  have hl := Likeness.uniform_onLines f
  have hm : m.Like (Likeness.onLines f) (m.relabel (.ofLine f) ()) :=
    (Machine.Like.eq_mapValues_iff hl).2 ⟨rfl, rfl, rfl, rfl, rfl⟩
  have hrun := follows_execute hl (parametric_onLines f) fuel p hm
  rw [Nat.zero_add] at hrun
  replace hrun : EndsLike (Likeness.onLines f) (fun _ _ => True) (execute fuel p m)
    (execute fuel (relabelAll (.ofLine f) () p) (m.relabel (.ofLine f) ())) := hrun
  generalize execute fuel p m = left,
    execute fuel (relabelAll (.ofLine f) () p) (m.relabel (.ofLine f) ()) = right at hrun ⊢
  obtain ⟨r, m₁⟩ := left
  obtain ⟨r', ⟨scopes, tables, limits, callDepth, file⟩⟩ := right
  obtain ⟨hm₁, hend⟩ := hrun.concur (fun _ _ => id) fun _ _ => id
  obtain ⟨hscopes, htables, hcalls, hlimits, hfile⟩ := (Machine.Like.eq_mapValues_iff hl).1 hm₁
  cases hscopes
  cases htables
  cases hcalls
  cases hlimits
  cases hfile
  refine Prod.ext ?_ rfl
  cases hend with
  | value _ => rfl
  | stop hs => exact congrArg Except.error hs

/-! ### A text that moves -/

/-- Carries out the text with the lines of its own nodes marked, where no other lines are marked. -/
def executeMarked (fuel : Nat) (p : Program) (m : Machine) : Except Stop Unit × Machine :=
  execute fuel (markAll p) (m.relabel .fixed ())

/-- What comes of a run, with the marks taken off its lines and the marked lines raised by `k`. -/
def unmark (k : Nat) (x : Except Stop Unit × Machine) : Except Stop Unit × Machine :=
  (x.1.mapError (Stop.atLine (unmarkLine k)), x.2.relabel (.moved k) ())

/-- A text that moves down by `k` lines does the same, but for its own lines, which are raised by `k`. -/
theorem execute_raised_eq_unmark (k fuel : Nat) (p : Program) (m : Machine) :
    execute fuel (p.mapLines (· + k)) m = unmark k (executeMarked fuel p m) := by
  have h : execute fuel (relabelAll (.moved k) () (markAll p)) ((m.relabel .fixed ()).relabel (.moved k) ()) =
    unmark k (executeMarked fuel p m) :=
    execute_ofLine (unmarkLine k) fuel (markAll p) (m.relabel .fixed ())
  rwa [relabelAll_moved, m.relabel_moved_fixed] at h

/-- A text that stays. -/
theorem execute_eq_unmark (fuel : Nat) (p : Program) (m : Machine) :
    execute fuel p m = unmark 0 (executeMarked fuel p m) := by
  have hstays : p.mapLines (· + 0) = p := p.mapLines_id
  rw [← execute_raised_eq_unmark, hstays]

/-- The same end, or the same failure on a line raised by `k`. -/
def RaisedEnd (k : Nat) (r r' : Except Stop Unit) : Prop :=
  r' = r ∨ r' = r.mapError (Stop.atLine (· + k))

/-- A line stays if it is not marked, and is raised if it is. -/
theorem unmarkLine_cases (k line : Nat) :
    unmarkLine k line = unmarkLine 0 line ∨ unmarkLine k line = unmarkLine 0 line + k := by
  show line / 2 + line % 2 * k = line / 2 + line % 2 * 0 ∨
    line / 2 + line % 2 * k = line / 2 + line % 2 * 0 + k
  rcases Nat.mod_two_eq_zero_or_one line with hline | hline
  · exact .inl (by rw [hline, Nat.zero_mul, Nat.zero_mul])
  · exact .inr (by rw [hline, Nat.one_mul, Nat.one_mul, Nat.add_zero])

theorem raisedEnd_unmark (k : Nat) (x : Except Stop Unit × Machine) :
    RaisedEnd k (unmark 0 x).1 (unmark k x).1 := by
  rcases x with ⟨(⟨cause, files⟩ | _) | _, m⟩
  · -- a cause has one line at most
    have hcause : cause.mapLine (unmarkLine k) = cause.mapLine (unmarkLine 0) ∨
        cause.mapLine (unmarkLine k) = (cause.mapLine (unmarkLine 0)).mapLine (· + k) := by
      cases cause with
      | unavailable file details => exact .inl rfl
      | lexical line e | grammar line e | runtime line e =>
        rcases unmarkLine_cases k line with h | h
        · exact .inl (by rw [Cause.mapLine, h, Cause.mapLine])
        · exact .inr (by rw [Cause.mapLine, h, Cause.mapLine, Cause.mapLine])
    rcases hcause with h | h
    · exact .inl (congrArg (fun c => Except.error (Stop.failed ⟨c, files⟩)) h)
    · exact .inr (congrArg (fun c => Except.error (Stop.failed ⟨c, files⟩)) h)
  · exact .inl rfl
  · exact .inl rfl

end Run

end TableScript
