import TableScript.Proofs.Evaluation.Following
import TableScript.Proofs.Evaluation.Footprint
import TableScript.Proofs.Evaluation.Layers

/-!
# A frame that binds nothing

An expression cannot tell whether there is one more empty frame around it.  A name is looked up past
the frame, and where a binding is overwritten, it is one of another frame.  Code binds names and sets
results only in frames that it opens itself, or in the current frame if it is a statement.  So the value
of an expression is the same in a new frame as outside of it, and the frame stays as it was opened
(`Passes.apply_enterFrame`).

`Passes` is the relation between the two runs.  It counts the frames that were opened since, which stand
inside of the empty one: expressions may have none, statements have at least one.  With scopes as layers
the two differ in one layer (`Scopes.Widened`), so each operation is seen to keep this apart from any
index.
-/

namespace TableScript

/-! ### An empty layer among others -/

namespace Layer

variable (kind : FrameKind) (name : String) (inner outer : List Layer)

/-- An empty layer binds no name. -/
theorem lookup_extra : lookup name (inner ++ empty kind :: outer) = lookup name (inner ++ outer) := by
  rw [lookup, lookup, List.findSome?_append, List.findSome?_append, List.findSome?_cons]
  rfl

/-- An empty layer is passed over where a name is overwritten. -/
theorem overwrite_extra (v : Value) :
    (overwrite name v (inner ++ outer) = none ∧
      overwrite name v (inner ++ empty kind :: outer) = none) ∨
    ∃ inner' outer', inner'.length = inner.length ∧ outer'.length = outer.length ∧
      overwrite name v (inner ++ outer) = some (inner' ++ outer') ∧
      overwrite name v (inner ++ empty kind :: outer) = some (inner' ++ empty kind :: outer') := by
  induction inner with
  | nil =>
    have hpassed : overwrite name v (empty kind :: outer) =
        (overwrite name v outer).map (empty kind :: ·) := if_neg Bool.false_ne_true
    rw [List.nil_append, List.nil_append, hpassed]
    rcases houter : overwrite name v outer with - | outer'
    · exact .inl ⟨rfl, rfl⟩
    · exact .inr ⟨[], outer', rfl, length_overwrite houter, rfl, rfl⟩
  | cons l inner ih =>
    rw [List.cons_append, List.cons_append, overwrite, overwrite]
    by_cases hname : l.names.contains name = true
    · rw [if_pos hname, if_pos hname]
      exact .inr ⟨l.bind name v :: inner, outer, rfl, rfl, rfl, rfl⟩
    · rw [if_neg hname, if_neg hname]
      obtain ⟨hnone, hnone'⟩ | ⟨inner', outer', hinner, houter, hsome, hsome'⟩ := ih
      · rw [hnone, hnone']
        exact .inl ⟨rfl, rfl⟩
      · rw [hsome, hsome']
        exact .inr ⟨l :: inner', outer', congrArg (· + 1) hinner, houter, rfl, rfl⟩

end Layer

/-- The second scopes have one frame more, which is empty.  It is around the `i` innermost frames, and
it is not the root. -/
def Scopes.Widened (kind : FrameKind) (i : Nat) (s s' : Scopes) : Prop :=
  ∃ inner outer, inner.length = i ∧ outer ≠ [] ∧
    s = ofLayers (inner ++ outer) ∧ s' = ofLayers (inner ++ .empty kind :: outer)

namespace Scopes.Widened

variable {kind : FrameKind} {i : Nat} {s s' : Scopes}

theorem lookup (h : s.Widened kind i s') (name : String) : s'.lookup name = s.lookup name := by
  obtain ⟨inner, outer, -, -, rfl, rfl⟩ := h
  rw [lookup_ofLayers, lookup_ofLayers, Layer.lookup_extra]

theorem push (h : s.Widened kind i s') (k : FrameKind) :
    (s.push k).Widened kind (i + 1) (s'.push k) := by
  obtain ⟨inner, outer, rfl, houter, rfl, rfl⟩ := h
  refine ⟨.empty k :: inner, outer, rfl, houter, ?_, ?_⟩
  · exact push_ofLayers k (by simp [houter])
  · exact push_ofLayers k (by simp)

theorem pop (h : s.Widened kind (i + 1) s') : s.pop.2.Widened kind i s'.pop.2 := by
  obtain ⟨inner, outer, hlength, houter, rfl, rfl⟩ := h
  obtain ⟨l, inner, rfl⟩ := List.exists_cons_of_length_eq_add_one hlength
  refine ⟨inner, outer, Nat.succ.inj hlength, houter, ?_, ?_⟩
  · rw [List.cons_append, pop_ofLayers l (by simp [houter])]
  · rw [List.cons_append, pop_ofLayers l (by simp)]

/-! With a frame inside of it, the empty one is never the current one. -/

theorem define (h : s.Widened kind (i + 1) s') (name : String) (v : Value) :
    (s.define name v).Widened kind (i + 1) (s'.define name v) := by
  obtain ⟨inner, outer, hlength, houter, rfl, rfl⟩ := h
  obtain ⟨l, inner, rfl⟩ := List.exists_cons_of_length_eq_add_one hlength
  exact ⟨l.bind name v :: inner, outer, hlength, houter, define_ofLayers name v l _,
    define_ofLayers name v l _⟩

theorem reassign (h : s.Widened kind (i + 1) s') (name : String) (v : Value) :
    (s'.reassign name v).1 = (s.reassign name v).1 ∧
      (s.reassign name v).2.Widened kind (i + 1) (s'.reassign name v).2 := by
  obtain ⟨inner, outer, hlength, houter, rfl, rfl⟩ := h
  obtain ⟨l, inner, rfl⟩ := List.exists_cons_of_length_eq_add_one hlength
  rw [List.cons_append, List.cons_append, reassign_ofLayers, reassign_ofLayers]
  obtain ⟨hnone, hnone'⟩ | ⟨inner', outer', hinner, houter', hsome, hsome'⟩ :=
    Layer.overwrite_extra kind name inner outer v
  · rw [hnone, hnone']
    exact ⟨rfl, l :: inner, outer, hlength, houter, rfl, rfl⟩
  · rw [hsome, hsome']
    refine ⟨rfl, l :: inner', outer', ?_, ?_, rfl, rfl⟩
    · rw [List.length_cons, hinner, ← hlength, List.length_cons]
    · rintro rfl
      exact houter (List.length_eq_zero_iff.1 houter'.symm)

theorem result? (h : s.Widened kind (i + 1) s') : s'.result? = s.result? := by
  obtain ⟨inner, outer, hlength, -, rfl, rfl⟩ := h
  obtain ⟨l, inner, rfl⟩ := List.exists_cons_of_length_eq_add_one hlength
  rw [List.cons_append, List.cons_append, result?_ofLayers, result?_ofLayers]

theorem setResult (h : s.Widened kind (i + 1) s') (v : Value) :
    (s'.setResult v).1 = (s.setResult v).1 ∧
      (s.setResult v).2.Widened kind (i + 1) (s'.setResult v).2 := by
  obtain ⟨inner, outer, hlength, houter, rfl, rfl⟩ := h
  obtain ⟨⟨names, k⟩, inner, rfl⟩ := List.exists_cons_of_length_eq_add_one hlength
  rw [List.cons_append, List.cons_append, setResult_ofLayers, setResult_ofLayers]
  cases k with
  | block => exact ⟨rfl, ⟨names, .block⟩ :: inner, outer, hlength, houter, rfl, rfl⟩
  | function w => exact ⟨rfl, ⟨names, .function v⟩ :: inner, outer, hlength, houter, rfl, rfl⟩

end Scopes.Widened

/-! ### Machines -/

/-- The second machine has one frame more, which is empty and around the `i` innermost ones. -/
structure Machine.Widened (kind : FrameKind) (i : Nat) (m m' : Machine) : Prop where
  scopes : m.scopes.Widened kind i m'.scopes
  tables : m'.tables = m.tables
  limits : m'.limits = m.limits
  callDepth : m'.callDepth = m.callDepth
  file : m'.file = m.file

namespace Machine.Widened

variable {kind : FrameKind} {i j : Nat} {m m' : Machine}

theorem withScopes (h : m.Widened kind i m') {s s' : Scopes} (hs : s.Widened kind j s') :
    Widened kind j { m with scopes := s } { m' with scopes := s' } :=
  ⟨hs, h.tables, h.limits, h.callDepth, h.file⟩

theorem withTables (h : m.Widened kind i m') (f : Tables → Tables) :
    Widened kind i { m with tables := f m.tables } { m' with tables := f m'.tables } :=
  ⟨h.scopes, congrArg f h.tables, h.limits, h.callDepth, h.file⟩

theorem withCallDepth (h : m.Widened kind i m') (f : Nat → Nat) :
    Widened kind i { m with callDepth := f m.callDepth } { m' with callDepth := f m'.callDepth } :=
  ⟨h.scopes, h.tables, h.limits, congrArg f h.callDepth, h.file⟩

theorem withFile (h : m.Widened kind i m') (file : Option String) :
    Widened kind i { m with file } { m' with file } :=
  ⟨h.scopes, h.tables, h.limits, h.callDepth, rfl⟩

end Machine.Widened

namespace Run

variable {α β : Type} {kind : FrameKind} {part : Part} {A : α → α → Prop} {B : β → β → Prop}

/-- The second run does with one empty frame more what the first does, and leaves the frame empty.  If
the runs are of statements, the empty frame is not the current one. -/
def Passes (kind : FrameKind) (part : Part) (α : Type) (A : α → α → Prop) (x y : Run α) : Prop :=
  ∀ i m m', (part = .statement → i ≠ 0) → m.Widened kind i m' →
    (x m).2.Widened kind i (y m').2 ∧ Concur Eq A (x m).1 (y m').1

namespace Passes

theorem weaken {x y : Run α} (h : Passes kind .expression α A x y) :
    Passes kind .statement α A x y := fun i m m' _ hm => h i m m' nofun hm

theorem mono {A' : α → α → Prop} {x y : Run α} (h : Passes kind part α A x y)
    (hA : ∀ a a', A a a' → A' a a') : Passes kind part α A' x y := by
  intro i m m' hi hm
  obtain ⟨hm₁, hend⟩ := h i m m' hi hm
  generalize (x m).1 = r, (y m').1 = r' at hend
  cases hend with
  | value ha => exact ⟨hm₁, .value (hA _ _ ha)⟩
  | stop hs => exact ⟨hm₁, .stop hs⟩

/-- A statement has a frame inside of the empty one. -/
theorem of_inside {x y : Run α}
    (h : ∀ i m m', m.Widened kind (i + 1) m' →
      (x m).2.Widened kind (i + 1) (y m').2 ∧ Concur Eq A (x m).1 (y m').1) :
    Passes kind .statement α A x y := by
  intro i m m' hi hm
  obtain ⟨i, rfl⟩ := Nat.exists_eq_succ_of_ne_zero (hi rfl)
  exact h i m m' hm

theorem bind {x y : Run α} {f f' : α → Run β} (hx : Passes kind part α A x y)
    (hf : ∀ a a', A a a' → Passes kind part β B (f a) (f' a')) :
    Passes kind part β B (x >>= f) (y >>= f') := by
  intro i m m' hi hm
  obtain ⟨hm₁, hend⟩ := hx i m m' hi hm
  generalize hr : (x m).1 = r, hr' : (y m').1 = r' at hend
  cases hend with
  | value ha =>
    rw [Action.bind_of_ok (Prod.ext hr rfl), Action.bind_of_ok (Prod.ext hr' rfl)]
    exact hf _ _ ha i _ _ hi hm₁
  | stop hs =>
    rw [Action.bind_of_error (Prod.ext hr rfl), Action.bind_of_error (Prod.ext hr' rfl)]
    exact ⟨hm₁, .stop hs⟩

theorem inFrame {x y : Run α} (hx : Passes kind .statement α A x y) :
    Passes kind .expression α A (inFrame .block x) (inFrame .block y) := by
  intro i m m' _ hm
  obtain ⟨hm₁, hend⟩ := hx (i + 1) (enterFrame .block m) (enterFrame .block m')
    (fun _ => Nat.succ_ne_zero i) (hm.withScopes (hm.scopes.push .block))
  exact ⟨hm₁.withScopes hm₁.scopes.pop, hend⟩

theorem inCall {x y : Run α} (line : Nat) (hx : Passes kind .statement α A x y) :
    Passes kind .expression α A (inCall line x) (inCall line y) := by
  intro i m m' _ hm
  rw [inCall_apply, inCall_apply, hm.limits, hm.callDepth]
  split
  · exact ⟨hm, .stop rfl⟩
  · obtain ⟨hm₁, hend⟩ := hx (i + 1) (enterCall m) (enterCall m') (fun _ => Nat.succ_ne_zero i)
      ((hm.withCallDepth (· + 1)).withScopes (hm.scopes.push (.function .null)))
    exact ⟨(hm₁.withCallDepth (· - 1)).withScopes hm₁.scopes.pop, hend⟩

theorem inFile {x y : Run α} (file : Option String) (hx : Passes kind part α A x y) :
    Passes kind part α A (inFile file x) (inFile file y) := by
  intro i m m' hi hm
  rw [inFile_apply, inFile_apply, hm.file]
  split
  · exact hx i m m' hi hm
  · obtain ⟨hm₁, hend⟩ := hx i { m with file } { m' with file } hi (hm.withFile file)
    cases file with
    | none => exact ⟨hm₁.withFile m.file, hend⟩
    | some name =>
      simp only [Action.between_apply, Action.mapError_apply]
      refine ⟨hm₁.withFile m.file, hend.mapError ?_⟩
      rintro s _ rfl
      rfl

end Passes

/-! ### Basic steps -/

theorem passes_lookup (line : Nat) (name : String) :
    Passes kind .expression Value (Comparison.Related {}) (lookup line name) (lookup line name) := by
  intro i m m' _ hm
  rw [lookup_apply, lookup_apply, hm.scopes.lookup name]
  refine ⟨hm, ?_⟩
  rcases m.scopes.lookup name with - | v
  · exact .stop rfl
  · exact .value (Comparison.related_iff_eq.2 rfl)

/-- Changing the scopes and saying whether it worked, or failing if it did not. -/
theorem passes_update_scopes {f : Scopes → Bool × Scopes} (line : Nat) (e : RuntimeError)
    (hf : ∀ i s s', s.Widened kind (i + 1) s' →
      (f s').1 = (f s).1 ∧ (f s).2.Widened kind (i + 1) (f s').2) :
    Passes kind .statement Unit (fun _ _ => True)
      (do
        let found ← Action.update fun m => ((f m.scopes).1, { m with scopes := (f m.scopes).2 })
        if found then pure () else failAt line e)
      (do
        let found ← Action.update fun m => ((f m.scopes).1, { m with scopes := (f m.scopes).2 })
        if found then pure () else failAt line e) := by
  refine Passes.bind (A := Eq) (.of_inside fun i m m' hm => ?_) ?_
  · obtain ⟨hfound, hscopes⟩ := hf i _ _ hm.scopes
    exact ⟨hm.withScopes hscopes, .value hfound.symm⟩
  · rintro found _ rfl i m m' _ hm
    cases found with
    | true => exact ⟨hm, .value trivial⟩
    | false => exact ⟨hm, .stop rfl⟩

theorem passes_setEntry (t : TableId) (key : Key) (v : Value) :
    Passes kind part Unit (fun _ _ => True) (setEntry t key v) (setEntry t key v) :=
  fun _ _ _ _ hm => ⟨hm.withTables (·.insert t key v), .value trivial⟩

/-- An empty frame makes no difference to evaluation. -/
theorem parametric_passes (kind : FrameKind) : Parametric {} (Passes kind) where
  weaken := Passes.weaken
  pure ha := fun _ _ _ _ hm => ⟨hm, .value ha⟩
  bind := Passes.bind
  outOfFuel hy := by
    rw [hy rfl]
    exact fun _ _ _ _ hm => ⟨hm, .stop rfl⟩
  failAt hline _ := by
    obtain ⟨-, rfl⟩ := hline
    exact fun _ _ _ _ hm => ⟨hm, .stop rfl⟩
  lookup hline name := by
    obtain ⟨-, rfl⟩ := hline
    exact passes_lookup _ name
  define name v v' hv := by
    obtain rfl := Comparison.related_iff_eq.1 hv
    exact .of_inside fun i m m' hm => ⟨hm.withScopes (hm.scopes.define name v), .value trivial⟩
  reassign {_ _ name v v'} hline hv := by
    obtain ⟨-, rfl⟩ := hline
    obtain rfl := Comparison.related_iff_eq.1 hv
    exact passes_update_scopes _ _ fun i s s' hs => hs.reassign name v
  setResult {_ _ v v'} hline hv := by
    obtain ⟨-, rfl⟩ := hline
    obtain rfl := Comparison.related_iff_eq.1 hv
    exact passes_update_scopes _ _ fun i s s' hs => hs.setResult v
  result := .of_inside fun i m m' hm => by
    refine ⟨hm, .value (Comparison.related_iff_eq.2 ?_)⟩
    show m.scopes.result?.getD .null = m'.scopes.result?.getD .null
    rw [hm.scopes.result?]
  newTable := fun i m m' _ hm => by
    refine ⟨hm.withTables (·.create.2), .value ⟨?_, trivial, trivial⟩⟩
    show m'.tables.create.1 = m.tables.create.1
    rw [hm.tables]
  getEntry {t} _ key := fun i m m' _ hm => by
    refine ⟨hm, .value (Comparison.related_iff_eq.2 ?_)⟩
    show m.tables.get t key = m'.tables.get t key
    rw [hm.tables]
  setFresh {t} _ key v v' hv := by
    obtain rfl := Comparison.related_iff_eq.1 hv
    exact passes_setEntry t key v
  store _ t key v v' hv := by
    obtain rfl := Comparison.related_iff_eq.1 hv
    exact passes_setEntry t key v
  inFrame := Passes.inFrame
  inCall hline hx := by
    obtain ⟨-, rfl⟩ := hline
    exact hx.inCall _
  inFile {_ _ _ _ _ file file'} hfile hx := by
    obtain rfl := hfile.eq_of_id
    exact hx.inFile _

/-- A run that pays no attention to an empty frame does in a new frame what it does outside of it. -/
theorem Passes.apply_enterFrame {x : Run α} (hx : Passes kind .expression α Eq x x) {m : Machine}
    (hm : m.scopes.Built) :
    x (enterFrame kind m) = ((x m).1, enterFrame kind (x m).2) := by
  obtain ⟨l, ls, hlayers⟩ := hm.exists_layers
  have hwide : m.Widened kind 0 (enterFrame kind m) := by
    refine ⟨⟨[], l :: ls, rfl, List.cons_ne_nil l ls, hlayers, ?_⟩, rfl, rfl, rfl, rfl⟩
    show m.scopes.push kind = _
    rw [hlayers, Scopes.push_ofLayers kind (List.cons_ne_nil l ls)]
    rfl
  obtain ⟨⟨⟨inner, outer, hlength, houter, hscopes, hscopes'⟩, htables, hlimits, hcalls, hfile⟩, hend⟩ :=
    hx 0 m (enterFrame kind m) nofun hwide
  -- no frame is inside of the empty one, so it is the innermost again
  obtain rfl := List.length_eq_zero_iff.1 hlength
  generalize x m = left, x (enterFrame kind m) = right at *
  obtain ⟨r, m₁⟩ := left
  obtain ⟨r', m₁'⟩ := right
  have hresult : r = r' := by
    cases hend with
    | value ha => rw [ha]
    | stop hs => rw [show _ = _ from hs]
  have hpush : m₁'.scopes = m₁.scopes.push kind := by
    rw [hscopes, hscopes', List.nil_append, List.nil_append, Scopes.push_ofLayers kind houter]
  obtain ⟨scopes, tables, limits, callDepth, file⟩ := m₁'
  cases hpush
  cases htables
  cases hlimits
  cases hcalls
  cases hfile
  rw [hresult]
  rfl

end Run

end TableScript
