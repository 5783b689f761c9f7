import TableScript.Proofs.Evaluation.Alike
import TableScript.Proofs.Program.Relabeling

/-!
# Changing the values that a machine holds

A relabeling of code changes the functions among the values of a machine.  More generally, a map on values
is carried through frames and tables (`mapValues`).  One map after another is one map
(`Scopes.mapValues_mapValues`), a machine that holds only values that are related to their images is alike to
its image (`Machine.alike_mapValues`), and what is alike value by value along the map is the image under it
(`Scopes.Alike.eq_mapValues`).
-/

namespace TableScript

variable {π : Type}

/-! ### Values and what holds them -/

/-- A value with other positions, if it is a function. -/
def Value.relabel (g : Relabeling π) (p : π) : Value → Value
  | .function f => .function (f.relabel g p)
  | v => v

/-- The same keys, with each value changed. -/
def Dictionary.mapValues {κ : Type} (T : Value → Value) (d : Dictionary κ Value) :
    Dictionary κ Value := ⟨d.entries.map fun e => (e.1, T e.2)⟩

/-- The same kind, with the result changed. -/
def FrameKind.mapValues (T : Value → Value) : FrameKind → FrameKind
  | .block => .block
  | .function v => .function (T v)

/-- The same names, with each value changed. -/
def Frame.mapValues (T : Value → Value) (f : Frame) : Frame where
  names := f.names.mapValues T
  parent := f.parent
  kind := f.kind.mapValues T

/-- The same frames, with each value changed. -/
def Scopes.mapValues (T : Value → Value) (s : Scopes) : Scopes :=
  ⟨s.frames.map (Frame.mapValues T), s.current⟩

/-- The same tables, with each value changed. -/
def Tables.mapValues (T : Value → Value) (ts : Tables) : Tables :=
  ⟨ts.contents.map (Dictionary.mapValues T)⟩

/-! Relabeling by the identity changes no value, so it changes nothing that holds values. -/

theorem Value.relabel_id (v : Value) : v.relabel .id () = v := by
  cases v with
  | function f => exact congrArg Value.function f.relabel_id
  | _ => rfl

theorem Dictionary.mapValues_relabel_id {κ : Type} (d : Dictionary κ Value) :
    d.mapValues (Value.relabel .id ()) = d := by
  simp only [Dictionary.mapValues, Value.relabel_id, List.map_id']

theorem Frame.mapValues_relabel_id (f : Frame) : f.mapValues (Value.relabel .id ()) = f := by
  obtain ⟨names, parent, kind⟩ := f
  rw [Frame.mapValues, Dictionary.mapValues_relabel_id]
  cases kind with
  | block => rfl
  | function v => rw [FrameKind.mapValues, Value.relabel_id]

theorem Scopes.mapValues_relabel_id (s : Scopes) : s.mapValues (Value.relabel .id ()) = s := by
  simp only [Scopes.mapValues, funext Frame.mapValues_relabel_id, Array.map_id']

theorem Tables.mapValues_relabel_id (ts : Tables) : ts.mapValues (Value.relabel .id ()) = ts := by
  simp only [Tables.mapValues, funext Dictionary.mapValues_relabel_id, Array.map_id']

/-! One change after another is one change. -/

section Twice

variable (T T' : Value → Value)

theorem Dictionary.mapValues_mapValues {κ : Type} (d : Dictionary κ Value) :
    (d.mapValues T).mapValues T' = d.mapValues fun v => T' (T v) := by
  simp only [Dictionary.mapValues, List.map_map]
  rfl

theorem Frame.mapValues_mapValues (f : Frame) :
    (f.mapValues T).mapValues T' = f.mapValues fun v => T' (T v) := by
  obtain ⟨names, parent, kind⟩ := f
  simp only [Frame.mapValues, Dictionary.mapValues_mapValues]
  cases kind with
  | block => rfl
  | function v => rfl

theorem Scopes.mapValues_mapValues (s : Scopes) :
    (s.mapValues T).mapValues T' = s.mapValues fun v => T' (T v) := by
  simp only [Scopes.mapValues, Array.map_map, Function.comp_def, Frame.mapValues_mapValues]

theorem Tables.mapValues_mapValues (ts : Tables) :
    (ts.mapValues T).mapValues T' = ts.mapValues fun v => T' (T v) := by
  simp only [Tables.mapValues, Array.map_map, Function.comp_def, Dictionary.mapValues_mapValues]

end Twice

/-! ### What a machine holds -/

/-- The values in frames, in the results of calls and in tables. -/
inductive Machine.Holds (m : Machine) : Value → Prop
  | bound {f : Frame} {e : String × Value} :
      f ∈ m.scopes.frames → e ∈ f.names.entries → Holds m e.2
  | result {f : Frame} {v : Value} : f ∈ m.scopes.frames → f.kind = .function v → Holds m v
  | entry {table : Table} {e : Key × Value} :
      table ∈ m.tables.contents → e ∈ table.entries → Holds m e.2

theorem Machine.Reaches.holds {m : Machine} {v : Value} (h : m.Reaches v) : m.Holds v := by
  induction h with
  | bound hframe hname => exact .bound hframe hname
  | result hframe hkind => exact .result hframe hkind
  | @entry t k v _ hentry _ =>
    rcases htable : m.tables.contents[t.index]? with - | table
    · -- a table that is not there has no entries
      simp [Tables.entries, Tables.table, Array.getD_eq_getD_getElem?, htable] at hentry
    · have hmem : (k, v) ∈ table.entries := by
        simpa [Tables.entries, Tables.table, Array.getD_eq_getD_getElem?, htable] using hentry
      exact .entry (Array.mem_of_getElem? htable) hmem

/-- What a machine holds is smaller than the machine. -/
theorem Machine.Holds.sizeOf_lt {m : Machine} {v : Value} (h : m.Holds v) : sizeOf v < sizeOf m := by
  obtain ⟨⟨frames, current⟩, ⟨contents⟩, limits, callDepth, file⟩ := m
  simp only [Machine.mk.sizeOf_spec, Scopes.mk.sizeOf_spec, Tables.mk.sizeOf_spec]
  cases h with
  | @bound f e hframe hname =>
    have hframe := Array.sizeOf_lt_of_mem hframe
    have hname := List.sizeOf_lt_of_mem hname
    obtain ⟨⟨entries⟩, parent, kind⟩ := f
    obtain ⟨name, v⟩ := e
    simp only [Frame.mk.sizeOf_spec, Dictionary.mk.sizeOf_spec, Prod.mk.sizeOf_spec] at *
    omega
  | @result f v hframe hkind =>
    have hframe := Array.sizeOf_lt_of_mem hframe
    obtain ⟨⟨entries⟩, parent, kind⟩ := f
    obtain rfl : kind = .function v := hkind
    simp only [Frame.mk.sizeOf_spec, FrameKind.function.sizeOf_spec] at *
    omega
  | @entry table e htable hentry =>
    have htable := Array.sizeOf_lt_of_mem htable
    have hentry := List.sizeOf_lt_of_mem hentry
    obtain ⟨entries⟩ := table
    obtain ⟨k, v⟩ := e
    simp only [Dictionary.mk.sizeOf_spec, Prod.mk.sizeOf_spec] at *
    omega

section Images

variable {κ : Type} {V : Value → Value → Prop} {T : Value → Value}

/-! What is related to its image value by value is alike to its image. -/

theorem Dictionary.alike_mapValues {d : Dictionary κ Value} (hV : ∀ e ∈ d.entries, V e.2 (T e.2)) :
    d.Alike V (d.mapValues T) := by
  apply List.forall₂_map_right_iff.2
  exact List.forall₂_same.2 fun e he => ⟨rfl, hV e he⟩

theorem Machine.alike_mapValues {m : Machine} (hV : ∀ v, m.Holds v → V v (T v))
    (htable : ∀ t, V (.table t) (.table t)) :
    m.scopes.Alike V (m.scopes.mapValues T) ∧ m.tables.Alike V (m.tables.mapValues T) := by
  refine ⟨⟨?_, rfl, fun i => ?_⟩, ⟨?_, fun t _ => ?_, fun t _ => htable t⟩⟩
  · simp [Scopes.depth, Scopes.mapValues]
  · simp only [Scopes.mapValues, Array.getElem?_map]
    rcases hframe : m.scopes.frames[i]? with - | f
    · exact .none
    · have hmem : f ∈ m.scopes.frames := Array.mem_of_getElem? hframe
      refine .some ⟨Dictionary.alike_mapValues fun e he => hV _ (.bound hmem he), rfl, ?_⟩
      show f.kind.Alike V (f.kind.mapValues T)
      rcases hkind : f.kind with - | v
      · exact .block
      · exact .function (hV v (.result hmem hkind))
  · simp [Tables.mapValues]
  · simp only [Tables.mapValues, Tables.table, Array.getD_eq_getD_getElem?, Array.getElem?_map]
    rcases htable : m.tables.contents[t.index]? with - | table
    · exact .nil
    · exact Dictionary.alike_mapValues fun e he => hV _ (.entry (Array.mem_of_getElem? htable) he)

/-! What is alike along a map is the image under it. -/

section Eq

variable (hV : ∀ v v', V v v' → v' = T v)

include hV

theorem Dictionary.Alike.eq_mapValues {d d' : Dictionary κ Value} (h : d.Alike V d') :
    d' = d.mapValues T := by
  obtain ⟨l⟩ := d
  obtain ⟨l'⟩ := d'
  replace h : List.Forall₂ (fun e e' => e'.1 = e.1 ∧ V e.2 e'.2) l l' := h
  show Dictionary.mk l' = ⟨l.map fun e => (e.1, T e.2)⟩
  congr 1
  induction h with
  | nil => rfl
  | cons he _ ih =>
    rw [List.map_cons, ← ih]
    exact congrArg (· :: _) (Prod.ext he.1 (hV _ _ he.2))

theorem FrameKind.Alike.eq_mapValues {kind kind' : FrameKind} (h : kind.Alike V kind') :
    kind' = kind.mapValues T := by
  cases h with
  | block => rfl
  | function hv => exact congrArg FrameKind.function (hV _ _ hv)

theorem Frame.Alike.eq_mapValues {f f' : Frame} (h : f.Alike V f') : f' = f.mapValues T := by
  obtain ⟨names, parent, kind⟩ := f
  obtain ⟨names', parent', kind'⟩ := f'
  have hnames : names' = names.mapValues T := h.names.eq_mapValues hV
  have hparent : parent' = parent := h.parent
  have hkind : kind' = kind.mapValues T := h.kind.eq_mapValues hV
  rw [hnames, hparent, hkind]
  rfl

theorem Scopes.Alike.eq_mapValues {s s' : Scopes} (h : s.Alike V s') : s' = s.mapValues T := by
  obtain ⟨frames, current⟩ := s
  obtain ⟨frames', current'⟩ := s'
  obtain rfl : current' = current := h.current
  show Scopes.mk frames' current' = ⟨frames.map (Frame.mapValues T), current'⟩
  congr 1
  apply Array.ext_getElem?
  intro i
  rw [Array.getElem?_map]
  have hframe : Option.Rel (Frame.Alike V) frames[i]? frames'[i]? := h.frame i
  generalize frames[i]? = f, frames'[i]? = f' at hframe ⊢
  cases hframe with
  | none => rfl
  | some hframe => exact congrArg some (hframe.eq_mapValues hV)

theorem Tables.Alike.eq_mapValues (htable : ∀ t, V (.table t) (.table t)) {ts ts' : Tables}
    (h : ts.Alike V ts') : ts' = ts.mapValues T := by
  obtain ⟨contents⟩ := ts
  obtain ⟨contents'⟩ := ts'
  have hsize : contents'.size = contents.size := h.size
  show Tables.mk contents' = ⟨contents.map (Dictionary.mapValues T)⟩
  congr 1
  apply Array.ext
  · rw [Array.size_map, hsize]
  · intro i hi hi'
    have hentries := (h.table ⟨i⟩ (htable _)).eq_mapValues hV
    have hlt : i < contents.size := hsize ▸ hi
    simp only [Tables.table, Array.getD_eq_getD_getElem?, Array.getElem?_eq_getElem hi,
      Array.getElem?_eq_getElem hlt, Option.getD_some] at hentries
    rw [hentries, Array.getElem_map]

end Eq

end Images

end TableScript
