import TableScript.Proofs.Evaluation.Parametric

/-!
# Runs that follow one another

A second run follows a first if, on a machine that is like the first one's, it comes to a like end: the
same value, or a stop for a like reason, with machines that are like one another again.  A run may also be
cut off for a reason that does not count; then nothing is said of the other.  `Likeness` says what counts as
like.  Following is a relation that the rules of evaluation keep (`stepwise_follows`), and if
the code differs in its positions only, a whole program can be followed (`parametric_follows`).

The first use is fuel.  A run with more fuel follows a run with less, unless that is cut off for lack of
it (`execute_add_fuel`).  So how a program ends does not depend on the fuel, and can be stated without it:
`Finishes p m r m'` says that the program `p` ends on `m` with `r` and leaves `m'`.  There is at most one
such end (`Finishes.unique`), and a program that has none diverges (`not_diverges_iff`).
-/

namespace TableScript

/-- What counts as like, besides what code and values may differ in. -/
structure Likeness (t : Terms) where
  /-- How the limits of the machines differ, with so many calls active. -/
  limits : Nat → Limits → Limits → Prop := fun _ => Eq
  /-- How the files that are running differ. -/
  file : Option String → Option String → Prop := Eq
  /-- Why the first run may be cut off. -/
  cut : Stop → Prop := fun _ => False
  /-- Why the second run may be cut off. -/
  cut' : Stop → Prop := fun _ => False
  /-- How the reasons to stop differ. -/
  same : Stop → Stop → Prop := Eq

/-- The same, but for how the limits differ. -/
def Likeness.withLimits {t : Terms} (l : Likeness t) (limits : Nat → Limits → Limits → Prop) :
    Likeness t := { l with limits }

/-- What a likeness has to satisfy so that the rules keep it: any table may be filled, the mark of a file does
not hide why a run is cut off, and failures at the lines of one node and calls too many are covered. -/
structure Likeness.Lawful {t : Terms} (l : Likeness t) : Prop where
  fresh : ∀ i, t.fresh i
  mark : ∀ name {s}, l.cut s → l.cut (s.inFile name)
  mark' : ∀ name {s}, l.cut' s → l.cut' (s.inFile name)
  failure : ∀ {form line line'}, t.lines form line line' → ∀ e,
    l.same (.failed (.runtime line e)) (.failed (.runtime line' e))
  calls : ∀ {n x y}, l.limits n x y → y.callDepth = x.callDepth ∨
    x.callDepth ≤ y.callDepth ∧ ∀ line, l.cut (.failed (.runtime line (.callDepthExceeded x.callDepth)))

/-- What it has to satisfy so that whole programs can be followed, with other positions and more fuel: it
leaves no code and no table out, it covers a lack of fuel, the limits are like at every depth, and the second
run is not cut off. -/
structure Likeness.Uniform {k : Comparison} (l : Likeness k.terms) : Prop extends l.Lawful where
  second : ∀ s, ¬ l.cut' s
  nodes : ∀ n, k.nodes n
  known : ∀ i, k.known i
  fuel : l.cut .outOfFuel ∨ k.surplus = 0 ∧ l.same .outOfFuel .outOfFuel
  depth : ∀ {n n' x y}, l.limits n x y → l.limits n' x y

theorem Likeness.Uniform.related_iff {k : Comparison} {l : Likeness k.terms} (hl : l.Uniform)
    {v v' : Value} : k.Related v v' ↔ v' = v.relabel k.relabeling () :=
  Comparison.related_iff hl.nodes hl.known

/-! ### Machines -/

/-- Machines that are alike but for what a likeness leaves open. -/
structure Machine.Like {t : Terms} (l : Likeness t) (m m' : Machine) : Prop where
  scopes : m.scopes.Alike t.Related m'.scopes
  tables : m.tables.Alike t.Related m'.tables
  callDepth : m'.callDepth = m.callDepth
  limits : l.limits m.callDepth m.limits m'.limits
  file : l.file m.file m'.file

namespace Machine.Like

variable {t : Terms} {l : Likeness t} {m m' : Machine}

theorem withScopes (h : m.Like l m') {s s' : Scopes} (hs : s.Alike t.Related s') :
    Like l { m with scopes := s } { m' with scopes := s' } :=
  ⟨hs, h.tables, h.callDepth, h.limits, h.file⟩

theorem withTables (h : m.Like l m') {ts ts' : Tables} (hts : ts.Alike t.Related ts') :
    Like l { m with tables := ts } { m' with tables := ts' } :=
  ⟨h.scopes, hts, h.callDepth, h.limits, h.file⟩

theorem withFile (h : m.Like l m') {file file' : Option String} (hfile : l.file file file') :
    Like l { m with file := file } { m' with file := file' } :=
  ⟨h.scopes, h.tables, h.callDepth, h.limits, hfile⟩

theorem enterCall (h : m.Like l m') {limits : Nat → Limits → Limits → Prop}
    (hlimits : limits (m.callDepth + 1) m.limits m'.limits) :
    (Run.enterCall m).Like (l.withLimits limits) (Run.enterCall m') :=
  ⟨h.scopes.push (.function .null), h.tables, congrArg (· + 1) h.callDepth, hlimits, h.file⟩

theorem leaveCall {limits : Nat → Limits → Limits → Prop} (h : m.Like (l.withLimits limits) m')
    (hlimits : l.limits (m.callDepth - 1) m.limits m'.limits) :
    (Run.leaveCall m).Like l (Run.leaveCall m') :=
  ⟨h.scopes.pop, h.tables, congrArg (· - 1) h.callDepth, hlimits, h.file⟩

/-- The second machine is the first with other positions, apart from its limits and its file. -/
theorem eq_mapValues_iff {k : Comparison} {l : Likeness k.terms} (hl : l.Uniform) : m.Like l m' ↔
    m'.scopes = m.scopes.mapValues (Value.relabel k.relabeling ()) ∧
      m'.tables = m.tables.mapValues (Value.relabel k.relabeling ()) ∧
        m'.callDepth = m.callDepth ∧ l.limits m.callDepth m.limits m'.limits ∧
          l.file m.file m'.file := by
  have htable : ∀ i, k.Related (.table i) (.table i) := fun i => .table (hl.known i)
  constructor
  · rintro ⟨hscopes, htables, hcalls, hlimits, hfile⟩
    have heq : ∀ v v', k.Related v v' → v' = v.relabel k.relabeling () := fun _ _ => hl.related_iff.1
    exact ⟨hscopes.eq_mapValues heq, htables.eq_mapValues heq htable, hcalls, hlimits, hfile⟩
  · rintro ⟨hscopes, htables, hcalls, hlimits, hfile⟩
    have hrelated : ∀ v, k.Related v (v.relabel k.relabeling ()) := fun v => hl.related_iff.2 rfl
    obtain ⟨hscopes', htables'⟩ := m.alike_mapValues (fun v _ => hrelated v) htable
    exact ⟨hscopes ▸ hscopes', htables ▸ htables', hcalls, hlimits, hfile⟩

end Machine.Like

/-! ### Runs -/

namespace Run

variable {α β : Type} {t : Terms} {l : Likeness t} {part : Part} {A : α → α → Prop} {B : β → β → Prop}

/-- Both runs ended with related values, or both stopped for related reasons. -/
inductive Concur (S : Stop → Stop → Prop) (A : α → α → Prop) : Except Stop α → Except Stop α → Prop
  | value {a a' : α} : A a a' → Concur S A (.ok a) (.ok a')
  | stop {s s' : Stop} : S s s' → Concur S A (.error s) (.error s')

theorem Concur.mono {S S' : Stop → Stop → Prop} {r r' : Except Stop α}
    (hS : ∀ s s', S s s' → S' s s') (h : Concur S A r r') : Concur S' A r r' := by
  cases h with
  | value ha => exact .value ha
  | stop hs => exact .stop (hS _ _ hs)

theorem Concur.mapError {S S' : Stop → Stop → Prop} {r r' : Except Stop α} {f f' : Stop → Stop}
    (hf : ∀ s s', S s s' → S' (f s) (f' s')) (h : Concur S A r r') :
    Concur S' A (r.mapError f) (r'.mapError f') := by
  cases h with
  | value ha => exact .value ha
  | stop hs => exact .stop (hf _ _ hs)

/-- One of two runs was cut off. -/
inductive CutOff (cut cut' : Stop → Prop) : Except Stop α → Except Stop α → Prop
  | first {s : Stop} (r' : Except Stop α) : cut s → CutOff cut cut' (.error s) r'
  | second (r : Except Stop α) {s : Stop} : cut' s → CutOff cut cut' r (.error s)

namespace CutOff

variable {cut cut' : Stop → Prop} {r r' : Except Stop α}

theorem exists_cut (h : CutOff cut cut' r r') (hcut' : ∀ s, ¬ cut' s) : ∃ s, r = .error s ∧ cut s := by
  cases h with
  | first _ hs => exact ⟨_, rfl, hs⟩
  | second _ hs => exact absurd hs (hcut' _)

theorem mapError {f f' : Stop → Stop} (h : CutOff cut cut' r r') (hf : ∀ s, cut s → cut (f s))
    (hf' : ∀ s, cut' s → cut' (f' s)) : CutOff cut cut' (r.mapError f) (r'.mapError f') := by
  cases h with
  | first _ hs => exact .first _ (hf _ hs)
  | second _ hs => exact .second _ (hf' _ hs)

end CutOff

/-- Where two runs got to: one was cut off, or they concur and left like machines. -/
def EndsLike (l : Likeness t) (A : α → α → Prop) (left right : Except Stop α × Machine) : Prop :=
  CutOff l.cut l.cut' left.1 right.1 ∨ (left.2.Like l right.2 ∧ Concur l.same A left.1 right.1)

/-- If neither run stopped for a reason to be cut off, then they concur. -/
theorem EndsLike.concur {left right : Except Stop α × Machine} (h : EndsLike l A left right)
    (hcut : ∀ s, left.1 = .error s → ¬ l.cut s) (hcut' : ∀ s, right.1 = .error s → ¬ l.cut' s) :
    left.2.Like l right.2 ∧ Concur l.same A left.1 right.1 := by
  refine h.resolve_left fun hoff => ?_
  generalize left.1 = r, right.1 = r' at hoff hcut hcut'
  cases hoff with
  | first _ hs => exact hcut _ rfl hs
  | second _ hs => exact hcut' _ rfl hs

/-- On like machines, `y` comes to an end that is like that of `x`, unless one of them is cut off. -/
def Follows (l : Likeness t) (_part : Part) (α : Type) (A : α → α → Prop) (x y : Run α) : Prop :=
  ∀ m m', m.Like l m' → EndsLike l A (x m) (y m')

namespace Follows

theorem of_concur {x y : Run α}
    (h : ∀ m m', m.Like l m' → (x m).2.Like l (y m').2 ∧ Concur l.same A (x m).1 (y m').1) :
    Follows l part α A x y := fun m m' hm => .inr (h m m' hm)

theorem bind {x y : Run α} {f f' : α → Run β} (hx : Follows l part α A x y)
    (hf : ∀ a a', A a a' → Follows l part β B (f a) (f' a')) :
    Follows l part β B (x >>= f) (y >>= f') := by
  intro m m' hm
  rcases hx m m' hm with hoff | ⟨hm₁, hend⟩
  · generalize hr : (x m).1 = r, hr' : (y m').1 = r' at hoff
    left
    cases hoff with
    | first _ hs =>
      rw [Action.bind_of_error (Prod.ext hr rfl)]
      exact .first _ hs
    | second _ hs =>
      rw [Action.bind_of_error (Prod.ext hr' rfl)]
      exact .second _ hs
  · generalize hr : (x m).1 = r, hr' : (y m').1 = r' at hend
    cases hend with
    | value ha =>
      rw [Action.bind_of_ok (Prod.ext hr rfl), Action.bind_of_ok (Prod.ext hr' rfl)]
      exact hf _ _ ha _ _ hm₁
    | stop hs =>
      rw [Action.bind_of_error (Prod.ext hr rfl), Action.bind_of_error (Prod.ext hr' rfl)]
      exact .inr ⟨hm₁, .stop hs⟩

/-- Changing both machines on the way in and on the way out. -/
theorem between {x y : Run α} {enter leave enter' leave' : Machine → Machine} {m m' : Machine}
    (hx : Follows l part α A x y) (henter : (enter m).Like l (enter' m'))
    (hleave : ∀ m₁ m₁', m₁.Like l m₁' → (leave m₁).Like l (leave' m₁')) :
    EndsLike l A (Action.between enter leave x m) (Action.between enter' leave' y m') := by
  rcases hx _ _ henter with hoff | ⟨hm₁, hend⟩
  · exact .inl hoff
  · exact .inr ⟨hleave _ _ hm₁, hend⟩

theorem inFileMark (hl : l.Lawful) {x y : Run α} {name : String} (hx : Follows l part α A x y)
    (hsame : ∀ s s', l.same s s' → l.same (s.inFile name) (s'.inFile name)) :
    Follows l part α A (Action.mapError (Stop.inFile name) x) (Action.mapError (Stop.inFile name) y) := by
  intro m m' hm
  simp only [Action.mapError_apply]
  rcases hx m m' hm with hoff | ⟨hm₁, hend⟩
  · exact .inl (hoff.mapError (fun _ => hl.mark name) fun _ => hl.mark' name)
  · exact .inr ⟨hm₁, hend.mapError hsame⟩

end Follows

/-! ### Basic steps -/

section Steps

variable (hl : l.Lawful)

include hl

theorem follows_failAt {form : Form} {line line' : Nat} (hline : t.lines form line line')
    (e : RuntimeError) : Follows l part α A (failAt line e) (failAt line' e) :=
  .of_concur fun _ _ hm => ⟨hm, .stop (hl.failure hline e)⟩

theorem follows_lookup {line line' : Nat} (hline : t.lines .other line line') (name : String) :
    Follows l .expression Value t.Related (lookup line name) (lookup line' name) := by
  apply Follows.of_concur
  intro m m' hm
  rw [lookup_apply, lookup_apply]
  refine ⟨hm, ?_⟩
  have hvalue := hm.scopes.lookup name
  generalize m.scopes.lookup name = r, m'.scopes.lookup name = r' at hvalue ⊢
  cases hvalue with
  | none => exact .stop (hl.failure hline _)
  | some hv => exact .value hv

/-- Changing the scopes and saying whether it worked, or failing if it did not. -/
theorem follows_update_scopes {f f' : Scopes → Bool × Scopes} {form : Form} {line line' : Nat}
    (hline : t.lines form line line') (e : RuntimeError)
    (hf : ∀ s s', s.Alike t.Related s' →
      (f' s').1 = (f s).1 ∧ (f s).2.Alike t.Related (f' s').2) :
    Follows l part Unit (fun _ _ => True)
      (do
        let found ← Action.update fun m => ((f m.scopes).1, { m with scopes := (f m.scopes).2 })
        if found then pure () else failAt line e)
      (do
        let found ← Action.update fun m => ((f' m.scopes).1, { m with scopes := (f' m.scopes).2 })
        if found then pure () else failAt line' e) := by
  refine Follows.bind (A := fun b b' => b' = b) (.of_concur fun m m' hm => ?_) fun b b' hb => ?_
  · obtain ⟨hfound, hscopes⟩ := hf _ _ hm.scopes
    exact ⟨hm.withScopes hscopes, .value hfound⟩
  · subst hb
    cases b' with
    | true => exact .of_concur fun _ _ hm => ⟨hm, .value trivial⟩
    | false => exact follows_failAt hl hline e

theorem follows_newTable :
    Follows l .expression TableId (fun i i' => i' = i ∧ t.known i ∧ t.fresh i) newTable newTable := by
  apply Follows.of_concur
  intro m m' hm
  obtain ⟨hplace, hknown, htables⟩ := hm.tables.create
  cases hknown with
  | table hknown => exact ⟨hm.withTables htables, .value ⟨hplace, hknown, hl.fresh _⟩⟩

omit hl in
theorem follows_getEntry {i : TableId} (hi : t.known i) (key : Key) :
    Follows l .expression Value t.Related (getEntry i key) (getEntry i key) :=
  .of_concur fun _ _ hm => ⟨hm, .value (hm.tables.get .null (.table hi) key)⟩

omit hl in
theorem follows_setEntry (i : TableId) (key : Key) {v v' : Value} (hv : t.Related v v') :
    Follows l part Unit (fun _ _ => True) (setEntry i key v) (setEntry i key v') :=
  .of_concur fun _ _ hm => ⟨hm.withTables (hm.tables.insert i key hv), .value trivial⟩

omit hl in
theorem follows_result : Follows l .statement Value t.Related result result := by
  apply Follows.of_concur
  intro m m' hm
  refine ⟨hm, .value ?_⟩
  show t.Related (m.scopes.result?.getD .null) (m'.scopes.result?.getD .null)
  have hresult := hm.scopes.result?
  generalize m.scopes.result? = r, m'.scopes.result? = r' at hresult ⊢
  cases hresult with
  | none => exact .null
  | some hv => exact hv

omit hl in
theorem Follows.inFrame {x y : Run α} (hx : Follows l .statement α A x y) :
    Follows l .expression α A (inFrame .block x) (inFrame .block y) := fun _ _ hm =>
  hx.between (hm.withScopes (hm.scopes.push .block)) fun _ _ h => h.withScopes h.scopes.pop

/-- The limits that are like inside of a call may be others than outside. -/
theorem Follows.inCall (limits : Nat → Limits → Limits → Prop)
    (hin : ∀ {n x y}, l.limits n x y → n < x.callDepth → limits (n + 1) x y)
    (hout : ∀ {n x y}, limits n x y → l.limits (n - 1) x y) {line line' : Nat}
    (hline : t.lines .call line line') {x y : Run α}
    (hx : Follows (l.withLimits limits) .statement α A x y) :
    Follows l .expression α A (inCall line x) (inCall line' y) := by
  intro m m' hm
  rw [inCall_apply, inCall_apply]
  by_cases hfull : m.limits.callDepth ≤ m.callDepth
  · rw [if_pos hfull]
    rcases hl.calls hm.limits with hdepth | ⟨-, hcut⟩
    · rw [if_pos (by rw [hdepth, hm.callDepth]; exact hfull), hdepth]
      exact .inr ⟨hm, .stop (hl.failure hline _)⟩
    · exact .inl (.first _ (hcut line))
  · -- a call that the first limits allow is allowed by the second
    have hroom : ¬ m'.limits.callDepth ≤ m'.callDepth := by
      have hcalls := hm.callDepth
      rcases hl.calls hm.limits with hdepth | ⟨hle, -⟩ <;> omega
    rw [if_neg hfull, if_neg hroom, Action.between_apply, Action.between_apply]
    have henter := hm.enterCall (hin hm.limits (Nat.lt_of_not_le hfull))
    rcases hx _ _ henter with hoff | ⟨hm₁, hend⟩
    · exact .inl hoff
    · exact .inr ⟨hm₁.leaveCall (hout hm₁.limits), hend⟩

theorem Follows.inCall_of_depth (hdepth : ∀ {n n' x y}, l.limits n x y → l.limits n' x y) {line line' : Nat}
    (hline : t.lines .call line line') {x y : Run α} (hx : Follows l .statement α A x y) :
    Follows l .expression α A (Run.inCall line x) (Run.inCall line' y) :=
  Follows.inCall hl l.limits (fun h _ => hdepth h) (fun h => hdepth h) hline hx

end Steps

/-! ### Files -/

/-- In the same files, errors are marked in the same way. -/
theorem Follows.inFile_of_same (hl : l.Lawful) (hfiles : l.file = Eq)
    (hsame : ∀ name s s', l.same s s' → l.same (s.inFile name) (s'.inFile name))
    (file : Option String) {x y : Run α} (hx : Follows l part α A x y) :
    Follows l part α A (inFile file x) (inFile file y) := by
  intro m m' hm
  have hany : ∀ file, l.file file file := fun file => by rw [hfiles]
  have hrunning : m.file = m'.file := by simpa only [hfiles] using hm.file
  rw [inFile_apply, inFile_apply, hrunning]
  split
  · exact hx m m' hm
  · cases file with
    | none =>
      refine hx.between ?_ fun _ _ h => ?_
      · exact hm.withFile (hany none)
      · exact h.withFile (hany m'.file)
    | some name =>
      refine (hx.inFileMark hl (hsame name)).between ?_ fun _ _ h => ?_
      · exact hm.withFile (hany (some name))
      · exact h.withFile (hany m'.file)

/-- The case that positions are the same, and errors are told apart. -/
theorem Follows.inFile_of_eq (hl : l.Lawful) {g : Relabeling Unit} (hid : g = .id) (hfiles : l.file = Eq)
    (hsame : l.same = Eq) {file file' : Option String} (hfile : g.Relates file file') {x y : Run α}
    (hx : Follows l part α A x y) : Follows l part α A (inFile file x) (inFile file' y) := by
  rw [hid] at hfile
  obtain rfl := hfile.eq_of_id
  refine hx.inFile_of_same hl hfiles (fun name s s' hs => ?_) file'
  rw [hsame] at hs ⊢
  rw [hs]

section AnyFile

-- machines may run in any files, so the files of one run make no difference if marks do not count
variable (hl : l.Lawful) (hfiles : ∀ file file', l.file file file')

include hl hfiles

theorem Follows.inFile_left (hsame : ∀ name s s', l.same s s' → l.same (s.inFile name) s')
    (file : Option String) {x y : Run α} (hx : Follows l part α A x y) :
    Follows l part α A (inFile file x) y := by
  intro m m' hm
  obtain ⟨mark, left, hmark, hrun⟩ := inFile_cases file x m
  have hmarks : (∀ s, l.cut s → l.cut (mark s)) ∧ ∀ s s', l.same s s' → l.same (mark s) s' := by
    rcases hmark with rfl | ⟨name, rfl⟩
    · exact ⟨fun _ => id, fun _ _ => id⟩
    · exact ⟨fun _ => hl.mark name, hsame name⟩
  rw [hrun]
  refine (hx _ _ (hm.withFile (hfiles file m'.file))).imp (fun hoff => ?_) fun ⟨hm₁, hend⟩ => ?_
  · rw [← mapError_id (y m').1]
    exact hoff.mapError hmarks.1 fun _ => id
  · refine ⟨hm₁.withFile (hfiles left _), ?_⟩
    rw [← mapError_id (y m').1]
    exact hend.mapError hmarks.2

theorem Follows.inFile_right (hsame : ∀ name s s', l.same s s' → l.same s (s'.inFile name))
    (file : Option String) {x y : Run α} (hx : Follows l part α A x y) :
    Follows l part α A x (inFile file y) := by
  intro m m' hm
  obtain ⟨mark, left, hmark, hrun⟩ := inFile_cases file y m'
  have hmarks : (∀ s, l.cut' s → l.cut' (mark s)) ∧ ∀ s s', l.same s s' → l.same s (mark s') := by
    rcases hmark with rfl | ⟨name, rfl⟩
    · exact ⟨fun _ => id, fun _ _ => id⟩
    · exact ⟨fun _ => hl.mark' name, hsame name⟩
  rw [hrun]
  refine (hx _ _ (hm.withFile (hfiles m.file file))).imp (fun hoff => ?_) fun ⟨hm₁, hend⟩ => ?_
  · rw [← mapError_id (x m).1]
    exact hoff.mapError (fun _ => id) hmarks.1
  · refine ⟨hm₁.withFile (hfiles _ left), ?_⟩
    rw [← mapError_id (x m).1]
    exact hend.mapError hmarks.2

end AnyFile

/-! ### Code and programs -/

/-- Following is kept by the rules. -/
theorem stepwise_follows (hl : l.Lawful) : Stepwise t (Follows l) where
  weaken h := h
  pure ha := .of_concur fun _ _ hm => ⟨hm, .value ha⟩
  bind := Follows.bind
  failAt := follows_failAt hl
  lookup := follows_lookup hl
  define name _ _ hv := .of_concur fun _ _ hm =>
    ⟨hm.withScopes (hm.scopes.define name hv), .value trivial⟩
  reassign hline hv := follows_update_scopes hl hline _ fun _ _ hs => hs.reassign _ hv
  setResult hline hv := follows_update_scopes hl hline _ fun _ _ hs => hs.setResult hv
  result := follows_result
  newTable := follows_newTable hl
  getEntry hi key := follows_getEntry hi key
  setFresh _ key _ _ hv := follows_setEntry _ key hv
  store _ i key _ _ hv := follows_setEntry i key hv
  inFrame := Follows.inFrame

section Uniform

variable {k : Comparison} {l : Likeness k.terms}

/-- Following is kept by everything that evaluation is made of, given that it is by files. -/
theorem parametric_follows (hl : l.Uniform)
    (hfile : ∀ {part : Part} {α : Type} {A : α → α → Prop} {x y : Run α} {file file' : Option String},
      k.relabeling.Relates file file' → Follows l part α A x y →
        Follows l part α A (inFile file x) (inFile file' y)) :
    Parametric k (Follows l) where
  toStepwise := stepwise_follows hl.toLawful
  outOfFuel hy m m' hm := by
    rcases hl.fuel with hcut | ⟨hsurplus, hsame⟩
    · exact .inl (.first _ hcut)
    · rw [hy hsurplus]
      exact .inr ⟨hm, .stop hsame⟩
  inCall hline hx := hx.inCall_of_depth hl.toLawful hl.depth hline
  inFile := hfile

/-- A program with other positions is followed by itself. -/
theorem follows_execute (hl : l.Uniform) (hR : Parametric k (Follows l)) (fuel : Nat)
    (p : Program) {m m' : Machine} (hm : m.Like l m') :
    EndsLike l (fun _ _ => True) (execute fuel p m)
      (execute (k.surplus + fuel) (relabelAll k.relabeling () p) m') := by
  have hp : ∀ n ∈ nodesAll ⟨none, false⟩ p, k.nodes n := fun n _ => hl.nodes n
  exact hR.execute fuel hp m m' hm

/-! ### Runs that differ in their limits and their fuel

If positions are the same and errors are told apart, then following is coming to the same end. -/

theorem Concur.eq {r r' : Except Stop Unit} (h : Concur Eq (fun _ _ => True) r r') : r' = r := by
  cases h with
  | value _ => rfl
  | stop hs => rw [hs]

theorem execute_follows_of_id (hl : l.Uniform) (hid : k.relabeling = .id) (hfiles : l.file = Eq)
    (hsame : l.same = Eq) (fuel : Nat) (p : Program) (m : Machine) (limits : Limits)
    (hlimits : l.limits m.callDepth m.limits limits) :
    (∃ s, (execute fuel p m).1 = .error s ∧ l.cut s) ∨
      ∃ n limits', l.limits n (execute fuel p m).2.limits limits' ∧
        execute (k.surplus + fuel) p { m with limits } =
          ((execute fuel p m).1, { (execute fuel p m).2 with limits := limits' }) := by
  have hR : Parametric k (Follows l) :=
    parametric_follows hl fun hfile hx => hx.inFile_of_eq hl.toLawful hid hfiles hsame hfile
  have hm : m.Like l { m with limits } := by
    refine (Machine.Like.eq_mapValues_iff hl).2 ⟨?_, ?_, rfl, hlimits, by rw [hfiles]⟩
    · rw [hid, Scopes.mapValues_relabel_id]
    · rw [hid, Tables.mapValues_relabel_id]
  have hrun := follows_execute hl hR fuel p hm
  rw [hid, relabelAll_id] at hrun
  generalize execute fuel p m = left, execute (k.surplus + fuel) p { m with limits } = right at hrun ⊢
  obtain ⟨r, m₁⟩ := left
  obtain ⟨r', m₁'⟩ := right
  rcases hrun with hoff | ⟨hm₁, hend⟩
  · exact .inl (hoff.exists_cut hl.second)
  · obtain ⟨hscopes, htables, hcalls, hlimits', hfile⟩ := (Machine.Like.eq_mapValues_iff hl).1 hm₁
    rw [hid, Scopes.mapValues_relabel_id] at hscopes
    rw [hid, Tables.mapValues_relabel_id] at htables
    rw [hfiles] at hfile
    rw [hsame] at hend
    refine .inr ⟨_, m₁'.limits, hlimits', Prod.ext hend.eq ?_⟩
    obtain ⟨scopes, tables, limits', callDepth, file⟩ := m₁'
    cases hscopes
    cases htables
    cases hcalls
    cases hfile
    rfl

end Uniform

end Run

/-! ### Fuel -/

/-- More fuel, if there was enough. -/
def Likeness.moreFuel (d : Nat) : Likeness (Comparison.terms { surplus := d }) where
  cut s := s = .outOfFuel

theorem Likeness.uniform_moreFuel (d : Nat) : (moreFuel d).Uniform where
  nodes _ := trivial
  known _ := trivial
  fresh _ := trivial
  mark _ _ h := by rw [h]; rfl
  mark' _ _ := id
  second _ := id
  failure hline _ := by rw [hline.2]; rfl
  fuel := .inl rfl
  calls h := .inl (congrArg Limits.callDepth h.symm)
  depth h := h

namespace Run

/-- **Fuel is no part of the language.**  A run that ends comes to the same end with more fuel. -/
theorem execute_add_fuel {fuel : Nat} {p : Program} {m : Machine}
    (h : (execute fuel p m).1 ≠ .error .outOfFuel) (d : Nat) :
    execute (d + fuel) p m = execute fuel p m := by
  rcases execute_follows_of_id (Likeness.uniform_moreFuel d) rfl rfl rfl fuel p m m.limits rfl with
    ⟨s, hs, rfl⟩ | ⟨_, limits, rfl, hrun⟩
  · exact absurd hs h
  · exact hrun

/-! ### How a program ends -/

/-- The program ends with this result, and leaves this machine. -/
def Finishes (p : Program) (m : Machine) (r : Except Error Unit) (m' : Machine) : Prop :=
  ∃ fuel, execute fuel p m = (r.mapError .failed, m')

/-- No fuel is enough for the program. -/
def Diverges (p : Program) (m : Machine) : Prop :=
  ∀ fuel, (execute fuel p m).1 = .error .outOfFuel

/-- A program has one end at most. -/
theorem Finishes.unique {p : Program} {m m₁ m₂ : Machine} {r₁ r₂ : Except Error Unit}
    (h₁ : Finishes p m r₁ m₁) (h₂ : Finishes p m r₂ m₂) : r₁ = r₂ ∧ m₁ = m₂ := by
  obtain ⟨fuel₁, hrun₁⟩ := h₁
  obtain ⟨fuel₂, hrun₂⟩ := h₂
  have hends (r : Except Error Unit) : r.mapError Stop.failed ≠ .error .outOfFuel := by
    cases r <;> exact nofun
  have hmore₁ := execute_add_fuel (by rw [hrun₁]; exact hends r₁) fuel₂
  have hmore₂ := execute_add_fuel (by rw [hrun₂]; exact hends r₂) fuel₁
  rw [Nat.add_comm, hmore₂, hrun₁, hrun₂] at hmore₁
  obtain ⟨hr, rfl⟩ := Prod.mk.inj hmore₁
  refine ⟨?_, rfl⟩
  cases r₁ <;> cases r₂ <;> cases hr <;> rfl

/-- A program that does not end diverges. -/
theorem not_diverges_iff {p : Program} {m : Machine} :
    ¬ Diverges p m ↔ ∃ r m', Finishes p m r m' := by
  constructor
  · intro h
    obtain ⟨fuel, hfuel⟩ := not_forall.1 h
    rcases hrun : execute fuel p m with ⟨(e | _) | _, m'⟩
    · exact ⟨.error e, m', fuel, hrun⟩
    · exact absurd (by rw [hrun]) hfuel
    · exact ⟨.ok (), m', fuel, hrun⟩
  · rintro ⟨r, m', fuel, hrun⟩ hdiverges
    have hfuel := hdiverges fuel
    rw [hrun] at hfuel
    cases r <;> cases hfuel

end Run

end TableScript
