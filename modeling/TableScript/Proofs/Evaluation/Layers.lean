import TableScript.Proofs.Evaluation.Frames

/-!
# Scopes as a stack of layers

Scopes keep their frames in an array, with the frame around each one written down as an index.  Frames
are opened and closed in the order of a stack, so nothing is lost if the indices are left out: what is
left is a list of layers, names with what opened them, the innermost first.  `Scopes.ofLayers` puts the
indices back in.

Each operation on scopes is one on layers.  Opening a frame puts an empty layer in front and closing one
takes the first away; a name is looked up in the layers from the first on (`lookup_ofLayers`), bound in
the first (`define_ofLayers`), and overwritten in the first layer behind the first that binds it
(`reassign_ofLayers`).  All scopes that are built by these operations come from layers
(`Built.exists_layers`).
-/

namespace TableScript

/-- The names bound in one place, and what opened it. -/
structure Layer where
  names : Dictionary String Value := {}
  kind : FrameKind

namespace Layer

/-- A layer without names. -/
def empty (kind : FrameKind) : Layer := { kind }

/-- A layer in which a name is bound. -/
def bind (name : String) (v : Value) (l : Layer) : Layer := { l with names := l.names.insert name v }

/-- The frame of a layer with `n` layers around it. -/
def frame (l : Layer) (n : Nat) : Frame where
  names := l.names
  parent := if n = 0 then none else some (n - 1)
  kind := l.kind

/-- The frames of layers.  The innermost layer is the first one, and its frame is the last. -/
def frames : List Layer → List Frame
  | [] => []
  | l :: ls => frames ls ++ [l.frame ls.length]

/-- The value of a name in the innermost layer that binds it. -/
def lookup (name : String) (ls : List Layer) : Option Value := ls.findSome? fun l => l.names.get? name

/-- The layers after the innermost binding of a name was overwritten, if there is one. -/
def overwrite (name : String) (v : Value) : List Layer → Option (List Layer)
  | [] => none
  | l :: ls =>
    if l.names.contains name then some (l.bind name v :: ls)
    else (overwrite name v ls).map (l :: ·)

@[simp] theorem length_frames (ls : List Layer) : (frames ls).length = ls.length := by
  induction ls with
  | nil => rfl
  | cons l ls ih => simp [frames, ih]

theorem length_overwrite {name : String} {v : Value} {ls ls' : List Layer}
    (h : overwrite name v ls = some ls') : ls'.length = ls.length := by
  induction ls generalizing ls' with
  | nil => cases h
  | cons l ls ih =>
    rw [overwrite] at h
    split at h
    · cases h
      rfl
    · obtain ⟨rest, hrest, rfl⟩ := Option.map_eq_some_iff.1 h
      rw [List.length_cons, List.length_cons, ih hrest]

end Layer

namespace Scopes

/-- The scopes with these layers. -/
def ofLayers (ls : List Layer) : Scopes := ⟨(Layer.frames ls).toArray, ls.length - 1⟩

variable {l : Layer} {ls : List Layer} {name : String} {v : Value}

/-! ### Opening and closing -/

theorem top?_ofLayers (l : Layer) (ls : List Layer) :
    (ofLayers (l :: ls)).top? = some (l.frame ls.length) := by
  simp [top?, ofLayers, Layer.frames]

theorem push_ofLayers (kind : FrameKind) (hls : ls ≠ []) :
    (ofLayers ls).push kind = ofLayers (.empty kind :: ls) := by
  have hpos : ls.length ≠ 0 := fun h => hls (List.length_eq_zero_iff.1 h)
  simp [push, ofLayers, Layer.frames, Layer.frame, Layer.empty, hpos]

theorem pop_ofLayers (l : Layer) (hls : ls ≠ []) :
    (ofLayers (l :: ls)).pop = (some (l.frame ls.length), ofLayers ls) := by
  have hpos : ls.length ≠ 0 := fun h => hls (List.length_eq_zero_iff.1 h)
  simp [pop, ofLayers, Layer.frames, Layer.frame, hpos]

theorem pop_ofLayers_root (l : Layer) : (ofLayers [l]).pop = (none, ofLayers [l]) := rfl

/-! ### Looking for a name -/

theorem binder?_empty (name : String) (i : Nat) : binder? #[] name i = none := by
  rw [binder?]
  rfl

/-- A search does not look at frames that stand behind the one that it starts from. -/
theorem binder?_append {fs : List Frame} (gs : List Frame) {i : Nat} (hi : i < fs.length) :
    binder? (fs ++ gs).toArray name i = binder? fs.toArray name i := by
  induction i using Nat.strongRecOn with
  | ind i ih =>
    have hframe : (fs ++ gs).toArray[i]? = fs.toArray[i]? := by
      simp [List.getElem?_append_left hi]
    rw [binder?, binder?.eq_def fs.toArray, hframe]
    rcases fs.toArray[i]? with - | f
    · rfl
    · rcases hparent : f.parent with - | p
      · simp only [hparent]
      · simp only [hparent]
        split
        · rfl
        · split
          · next hlt => exact ih p hlt (by omega)
          · rfl

/-- A name is bound in the innermost layer, or searched for in those around it. -/
theorem binder?_frames (name : String) (l : Layer) (ls : List Layer) :
    binder? (Layer.frames (l :: ls)).toArray name ls.length =
      if l.names.contains name then some ls.length
      else binder? (Layer.frames ls).toArray name (ls.length - 1) := by
  have hlast : (Layer.frames (l :: ls)).toArray[ls.length]? = some (l.frame ls.length) := by
    simp [Layer.frames]
  rw [binder?, hlast]
  by_cases hname : l.names.contains name = true
  · rw [if_pos hname]
    exact if_pos hname
  · rw [if_neg hname]
    refine (if_neg hname).trans ?_
    cases ls with
    | nil => exact (binder?_empty name 0).symm
    | cons l' ls =>
      show (if ls.length < ls.length + 1 then binder? _ name ls.length else none) = _
      rw [if_pos (Nat.lt_succ_self _), Layer.frames]
      exact binder?_append _ (by simp)

theorem lt_of_binder? {fs : List Frame} {i j : Nat} (h : binder? fs.toArray name i = some j) :
    j < fs.length := by
  obtain ⟨f, hf, -⟩ := contains_of_binder? h
  obtain ⟨hlt, -⟩ := Array.getElem?_eq_some_iff.1 hf
  simpa using hlt

theorem lookup_ofLayers (name : String) (ls : List Layer) :
    (ofLayers ls).lookup name = Layer.lookup name ls := by
  induction ls with
  | nil =>
    show (binder? #[] name 0).bind _ = none
    rw [binder?_empty]
    rfl
  | cons l ls ih =>
    show (binder? (Layer.frames (l :: ls)).toArray name ls.length).bind _ = _
    rw [binder?_frames, Layer.lookup, List.findSome?_cons]
    by_cases hname : l.names.contains name = true
    · obtain ⟨v, hv⟩ := Option.isSome_iff_exists.1 hname
      rw [if_pos hname, hv]
      show ((Layer.frames (l :: ls)).toArray[ls.length]?).bind _ = some v
      simp [Layer.frames, Layer.frame, hv]
    · have hv : l.names.get? name = none := by simpa [Dictionary.contains] using hname
      rw [if_neg hname, hv]
      show _ = Layer.lookup name ls
      rw [← ih]
      show _ = (binder? (Layer.frames ls).toArray name (ls.length - 1)).bind _
      rcases hbinder : binder? (Layer.frames ls).toArray name (ls.length - 1) with - | i
      · rfl
      · have hlt := lt_of_binder? hbinder
        show ((Layer.frames ls ++ [_]).toArray[i]?).bind _ = ((Layer.frames ls).toArray[i]?).bind _
        simp only [List.getElem?_toArray, List.getElem?_append_left hlt]

/-! ### Binding a name -/

theorem modify_last (fs : List Frame) (f : Frame) (g : Frame → Frame) :
    (fs ++ [f]).modify fs.length g = fs ++ [g f] := by
  induction fs with
  | nil => rfl
  | cons f' fs ih => rw [List.cons_append, List.length_cons, List.modify_succ_cons, ih, List.cons_append]

theorem modify_of_lt {fs : List Frame} (f : Frame) (g : Frame → Frame) {i : Nat} (hi : i < fs.length) :
    (fs ++ [f]).modify i g = fs.modify i g ++ [f] := by
  induction fs generalizing i with
  | nil => cases hi
  | cons f' fs ih =>
    cases i with
    | zero => rfl
    | succ i =>
      rw [List.cons_append, List.modify_succ_cons, List.modify_succ_cons, List.cons_append,
        ih (Nat.lt_of_succ_lt_succ hi)]

/-- Changing the frame of the innermost layer. -/
theorem modify_ofLayers {g : Frame → Frame} {l' : Layer}
    (hg : g (l.frame ls.length) = l'.frame ls.length) :
    { ofLayers (l :: ls) with frames := (ofLayers (l :: ls)).frames.modify ls.length g } =
      ofLayers (l' :: ls) := by
  show (⟨(Layer.frames ls ++ [l.frame ls.length]).toArray.modify ls.length g, ls.length⟩ : Scopes) =
    ⟨(Layer.frames ls ++ [l'.frame ls.length]).toArray, ls.length⟩
  have hlast := modify_last (Layer.frames ls) (l.frame ls.length) g
  rw [Layer.length_frames] at hlast
  rw [List.modify_toArray, hlast, hg]

theorem define_ofLayers (name : String) (v : Value) (l : Layer) (ls : List Layer) :
    (ofLayers (l :: ls)).define name v = ofLayers (l.bind name v :: ls) :=
  modify_ofLayers rfl

theorem outerBinder?_ofLayers (name : String) (l : Layer) (ls : List Layer) :
    (ofLayers (l :: ls)).outerBinder? name =
      binder? (Layer.frames ls).toArray name (ls.length - 1) := by
  rw [outerBinder?, top?_ofLayers]
  cases ls with
  | nil => exact (binder?_empty name 0).symm
  | cons l' ls =>
    show binder? (Layer.frames (l' :: ls) ++ [_]).toArray name ls.length = _
    exact binder?_append _ (by simp)

/-- Overwriting a name goes to the frame that a search for it ends at. -/
theorem overwrite_eq (name : String) (v : Value) (ls : List Layer) :
    match binder? (Layer.frames ls).toArray name (ls.length - 1) with
    | none => Layer.overwrite name v ls = none
    | some i => ∃ ls', Layer.overwrite name v ls = some ls' ∧
        (Layer.frames ls).modify i (fun f => { f with names := f.names.insert name v }) =
          Layer.frames ls' := by
  induction ls with
  | nil =>
    show match binder? #[] name 0 with | none => _ | some i => _
    rw [binder?_empty]
    rfl
  | cons l ls ih =>
    rw [List.length_cons, Nat.add_sub_cancel, binder?_frames, Layer.overwrite]
    by_cases hname : l.names.contains name = true
    · rw [if_pos hname, if_pos hname]
      refine ⟨l.bind name v :: ls, rfl, ?_⟩
      rw [Layer.frames, ← Layer.length_frames ls, modify_last]
      rw [Layer.frames, Layer.length_frames ls]
      rfl
    · rw [if_neg hname, if_neg hname]
      rcases hbinder : binder? (Layer.frames ls).toArray name (ls.length - 1) with - | i
      · rw [hbinder] at ih
        show (Layer.overwrite name v ls).map _ = none
        rw [show Layer.overwrite name v ls = none from ih]
        rfl
      · -- the frame of the first layer stands behind the one that is changed
        rw [hbinder] at ih
        obtain ⟨ls', hls', hframes⟩ := ih
        refine ⟨l :: ls', by rw [hls']; rfl, ?_⟩
        rw [Layer.frames, modify_of_lt _ _ (lt_of_binder? hbinder), hframes, Layer.frames,
          Layer.length_overwrite hls']

theorem reassign_ofLayers (name : String) (v : Value) (l : Layer) (ls : List Layer) :
    (ofLayers (l :: ls)).reassign name v = match Layer.overwrite name v ls with
      | some ls' => (true, ofLayers (l :: ls'))
      | none => (false, ofLayers (l :: ls)) := by
  have hcases := overwrite_eq name v ls
  rw [reassign, outerBinder?_ofLayers]
  rcases hbinder : binder? (Layer.frames ls).toArray name (ls.length - 1) with - | i
  · rw [hbinder] at hcases
    rw [show Layer.overwrite name v ls = none from hcases]
  · rw [hbinder] at hcases
    obtain ⟨ls', hls', hframes⟩ := hcases
    rw [hls']
    show (true, (⟨(Layer.frames ls ++ [l.frame ls.length]).toArray.modify i _, ls.length⟩ : Scopes)) =
      (true, ⟨(Layer.frames ls' ++ [l.frame ls'.length]).toArray, ls'.length⟩)
    rw [List.modify_toArray, modify_of_lt _ _ (lt_of_binder? hbinder), hframes,
      Layer.length_overwrite hls']

/-! ### Results of calls -/

theorem result?_ofLayers (l : Layer) (ls : List Layer) :
    (ofLayers (l :: ls)).result? = match l.kind with
      | .function v => some v
      | .block => none := by
  rw [result?, top?_ofLayers]
  obtain ⟨names, kind⟩ := l
  cases kind with
  | block => rfl
  | function v => rfl

theorem setResult_ofLayers (v : Value) (l : Layer) (ls : List Layer) :
    (ofLayers (l :: ls)).setResult v = match l.kind with
      | .function _ => (true, ofLayers ({ l with kind := .function v } :: ls))
      | .block => (false, ofLayers (l :: ls)) := by
  rw [setResult, result?_ofLayers]
  obtain ⟨names, kind⟩ := l
  cases kind with
  | block => rfl
  | function w => exact congrArg (Prod.mk true) (modify_ofLayers rfl)

/-! ### All scopes come from layers -/

theorem Built.exists_layers {s : Scopes} (h : s.Built) : ∃ l ls, s = ofLayers (l :: ls) := by
  induction h with
  | fresh => exact ⟨.empty .block, [], rfl⟩
  | push kind _ ih =>
    obtain ⟨l, ls, rfl⟩ := ih
    exact ⟨_, _, push_ofLayers kind (List.cons_ne_nil l ls)⟩
  | pop _ ih =>
    obtain ⟨l, ls, rfl⟩ := ih
    cases ls with
    | nil => exact ⟨l, [], by rw [pop_ofLayers_root]⟩
    | cons l' ls => exact ⟨l', ls, by rw [pop_ofLayers l (List.cons_ne_nil l' ls)]⟩
  | define name v _ ih =>
    obtain ⟨l, ls, rfl⟩ := ih
    exact ⟨_, _, define_ofLayers name v l ls⟩
  | reassign name v _ ih =>
    obtain ⟨l, ls, rfl⟩ := ih
    rw [reassign_ofLayers]
    cases Layer.overwrite name v ls with
    | none => exact ⟨l, ls, rfl⟩
    | some ls' => exact ⟨l, ls', rfl⟩
  | setResult v _ ih =>
    obtain ⟨l, ls, rfl⟩ := ih
    rw [setResult_ofLayers]
    cases l.kind with
    | block => exact ⟨l, ls, rfl⟩
    | function w => exact ⟨_, ls, rfl⟩

end Scopes

end TableScript
