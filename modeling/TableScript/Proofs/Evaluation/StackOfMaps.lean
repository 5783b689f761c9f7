import TableScript.Proofs.Evaluation.Layers

/-!
# Scopes answer like a stack of maps

Seen from outside, scopes are a stack of maps: a list of levels that is never empty, each with a map from
names to values and with what opened it, and no indices at all (`Stack`).  What can be asked of scopes is
listed as `Scopes.Request`, and `Stack.perform` says what a stack of maps answers.  `Scopes.Shows` relates
scopes to the stack that they stand for, by way of their layers; a request keeps it and is answered alike
(`Shows.perform`), and so is every list of requests (`Shows.performAll`).

Scopes reach a frame by its index, and they go from a frame to the one around it by the index that the
frame holds.  That both are always those of open frames is `Scopes.Safe`.  It follows from the order that
the frames are in (`WellFormed.safe`), which every request keeps (`Built.perform`).
-/

namespace TableScript

/-- What can be asked of scopes. -/
inductive Scopes.Request where
  | push (kind : FrameKind)
  | pop
  | define (name : String) (v : Value)
  | reassign (name : String) (v : Value)
  | setResult (v : Value)
  | lookup (name : String)
  | result
  | root
  | depth

/-- What is answered, with names bound by an `μ`. -/
inductive Answer (μ : Type) where
  | done
  | found (b : Bool)
  | value (v : Option Value)
  | bindings (names : μ)
  | count (n : Nat)
  /-- What was bound in a frame that was closed, which frame was around it, and what had opened it; or that
  none was closed. -/
  | closed (frame : Option (μ × Option Nat × FrameKind))

/-- The same answer, with names bound in another way. -/
def Answer.map {μ ν : Type} (f : μ → ν) : Answer μ → Answer ν
  | .done => .done
  | .found b => .found b
  | .value v => .value v
  | .bindings names => .bindings (f names)
  | .count n => .count n
  | .closed frame => .closed (frame.map fun (names, parent, kind) => (f names, parent, kind))

namespace Scopes

/-- Answers a request. -/
def perform (s : Scopes) : Request → Answer (Dictionary String Value) × Scopes
  | .push kind => (.done, s.push kind)
  | .pop => (.closed (s.pop.1.map fun f => (f.names, f.parent, f.kind)), s.pop.2)
  | .define name v => (.done, s.define name v)
  | .reassign name v => (.found (s.reassign name v).1, (s.reassign name v).2)
  | .setResult v => (.found (s.setResult v).1, (s.setResult v).2)
  | .lookup name => (.value (s.lookup name), s)
  | .result => (.value s.result?, s)
  | .root => (.bindings s.root, s)
  | .depth => (.count s.depth, s)

/-- Answers requests, one after another. -/
def performAll (s : Scopes) : List Request → List (Answer (Dictionary String Value)) × Scopes
  | [] => ([], s)
  | request :: requests =>
    let (answer, s) := s.perform request
    let (answers, s) := s.performAll requests
    (answer :: answers, s)

end Scopes

/-! ### Stacks of maps -/

/-- A map from names to values, and what opened it. -/
structure Level where
  names : String → Option Value
  kind : FrameKind

namespace Level

/-- A level in which a name is bound. -/
def bind (name : String) (v : Value) (l : Level) : Level :=
  { l with names := fun x => if x = name then some v else l.names x }

/-- The levels after the innermost binding of a name was overwritten, if there is one. -/
def overwrite (name : String) (v : Value) : List Level → Option (List Level)
  | [] => none
  | l :: ls =>
    if (l.names name).isSome then some (l.bind name v :: ls) else (overwrite name v ls).map (l :: ·)

end Level

/-- Levels, the innermost first, of which there is at least one. -/
structure Stack where
  head : Level
  below : List Level

namespace Stack

/-- One level without names. -/
def bottom : Stack := ⟨⟨fun _ => none, .block⟩, []⟩

/-- The level that was there first. -/
def root (t : Stack) : Level := t.below.getLastD t.head

/-- Answers a request. -/
def perform (t : Stack) : Scopes.Request → Answer (String → Option Value) × Stack
  | .push kind => (.done, ⟨⟨fun _ => none, kind⟩, t.head :: t.below⟩)
  | .pop =>
    match t.below with
    | [] => (.closed none, t)
    | next :: rest => (.closed (some (t.head.names, some rest.length, t.head.kind)), ⟨next, rest⟩)
  | .define name v => (.done, { t with head := t.head.bind name v })
  | .reassign name v =>
    match Level.overwrite name v t.below with
    | some below => (.found true, { t with below })
    | none => (.found false, t)
  | .setResult v =>
    match t.head.kind with
    | .function _ => (.found true, { t with head := { t.head with kind := .function v } })
    | .block => (.found false, t)
  | .lookup name => (.value ((t.head :: t.below).findSome? fun l => l.names name), t)
  | .result =>
    match t.head.kind with
    | .function v => (.value (some v), t)
    | .block => (.value none, t)
  | .root => (.bindings t.root.names, t)
  | .depth => (.count (t.below.length + 1), t)

/-- Answers requests, one after another. -/
def performAll (t : Stack) : List Scopes.Request → List (Answer (String → Option Value)) × Stack
  | [] => ([], t)
  | request :: requests =>
    let (answer, t) := t.perform request
    let (answers, t) := t.performAll requests
    (answer :: answers, t)

end Stack

/-! ### Layers as levels -/

namespace Layer

/-- The level that a layer stands for. -/
def level (l : Layer) : Level := ⟨l.names.get?, l.kind⟩

theorem level_bind (name : String) (v : Value) (l : Layer) :
    (l.bind name v).level = l.level.bind name v := by
  have hnames : (l.names.insert name v).get? = fun x => if x = name then some v else l.names.get? x := by
    funext x
    rw [Dictionary.get?_insert]
    simp only [Std.LawfulEqOrd.compare_eq_iff_eq]
  show Level.mk (l.names.insert name v).get? l.kind = _
  rw [hnames]
  rfl

theorem map_overwrite (name : String) (v : Value) (ls : List Layer) :
    Level.overwrite name v (ls.map level) = (overwrite name v ls).map (List.map level) := by
  induction ls with
  | nil => rfl
  | cons l ls ih =>
    rw [List.map_cons, Level.overwrite, overwrite, ih]
    by_cases hname : l.names.contains name = true
    · rw [if_pos hname, if_pos (show (l.level.names name).isSome = true from hname), ← level_bind]
      rfl
    · rw [if_neg hname, if_neg (show ¬ (l.level.names name).isSome = true from hname)]
      rw [Option.map_map, Option.map_map]
      rfl

theorem getLastD_level (l : Layer) (ls : List Layer) :
    (ls.map level).getLastD l.level = (ls.getLastD l).level := by
  induction ls generalizing l with
  | nil => rfl
  | cons l' ls ih => rw [List.map_cons, List.getLastD_cons, List.getLastD_cons, ih]

theorem findSome?_level (name : String) (ls : List Layer) :
    (ls.map level).findSome? (fun l => l.names name) = lookup name ls := by
  rw [List.findSome?_map]
  rfl

end Layer

namespace Scopes

theorem depth_ofLayers (ls : List Layer) : (ofLayers ls).depth = ls.length := by
  simp [depth, ofLayers]

/-- The root is the outermost layer. -/
theorem root_ofLayers (l : Layer) (ls : List Layer) :
    (ofLayers (l :: ls)).root = (ls.getLastD l).names := by
  have hfirst : (Layer.frames (l :: ls))[0]? = some ((ls.getLastD l).frame 0) := by
    induction ls generalizing l with
    | nil => rfl
    | cons l' ls ih =>
      rw [Layer.frames, List.getElem?_append_left (by simp), ih l']
      cases ls <;> rfl
  have hroot : (ofLayers (l :: ls)).frames[0]? = some ((ls.getLastD l).frame 0) := by
    show (Layer.frames (l :: ls)).toArray[0]? = _
    rw [List.getElem?_toArray, hfirst]
  rw [root, hroot]
  rfl

/-- The scopes stand for a stack of maps. -/
def Shows (s : Scopes) (t : Stack) : Prop :=
  ∃ l ls, s = ofLayers (l :: ls) ∧ t = ⟨Layer.level l, ls.map Layer.level⟩

theorem shows_fresh : fresh.Shows .bottom := ⟨.empty .block, [], rfl, rfl⟩

/-- One request is answered alike, and what it leaves stands for one another again. -/
theorem Shows.perform {s : Scopes} {t : Stack} (h : s.Shows t) (request : Request) :
    (s.perform request).1.map Dictionary.get? = (t.perform request).1 ∧
      (s.perform request).2.Shows (t.perform request).2 := by
  obtain ⟨l, ls, rfl, rfl⟩ := h
  cases request with
  | push kind => exact ⟨rfl, .empty kind, l :: ls, push_ofLayers kind (List.cons_ne_nil l ls), rfl⟩
  | pop =>
    cases ls with
    | nil => exact ⟨rfl, l, [], rfl, rfl⟩
    | cons l' ls =>
      rw [Scopes.perform, pop_ofLayers l (List.cons_ne_nil l' ls)]
      refine ⟨?_, l', ls, rfl, rfl⟩
      simp [Answer.map, Layer.frame, Stack.perform, Layer.level]
  | define name v =>
    rw [Scopes.perform, define_ofLayers, Stack.perform, ← Layer.level_bind]
    exact ⟨rfl, l.bind name v, ls, rfl, rfl⟩
  | reassign name v =>
    rw [Scopes.perform, reassign_ofLayers, Stack.perform, Layer.map_overwrite]
    cases Layer.overwrite name v ls with
    | none => exact ⟨rfl, l, ls, rfl, rfl⟩
    | some ls' => exact ⟨rfl, l, ls', rfl, rfl⟩
  | setResult v =>
    obtain ⟨names, kind⟩ := l
    rw [Scopes.perform, setResult_ofLayers]
    cases kind with
    | block => exact ⟨rfl, ⟨names, .block⟩, ls, rfl, rfl⟩
    | function w => exact ⟨rfl, ⟨names, .function v⟩, ls, rfl, rfl⟩
  | lookup name =>
    refine ⟨?_, l, ls, rfl, rfl⟩
    show Answer.value _ = Answer.value (((l :: ls).map Layer.level).findSome? fun l => l.names name)
    rw [lookup_ofLayers, Layer.findSome?_level]
  | result =>
    obtain ⟨names, kind⟩ := l
    rw [Scopes.perform, result?_ofLayers]
    cases kind with
    | block => exact ⟨rfl, ⟨names, .block⟩, ls, rfl, rfl⟩
    | function w => exact ⟨rfl, ⟨names, .function w⟩, ls, rfl, rfl⟩
  | root =>
    refine ⟨?_, l, ls, rfl, rfl⟩
    rw [Scopes.perform, root_ofLayers, Stack.perform, Stack.root, Layer.getLastD_level]
    rfl
  | depth =>
    refine ⟨?_, l, ls, rfl, rfl⟩
    rw [Scopes.perform, depth_ofLayers, Stack.perform, List.length_map]
    rfl

theorem Shows.performAll {s : Scopes} {t : Stack} (h : s.Shows t) (requests : List Request) :
    (s.performAll requests).1.map (Answer.map Dictionary.get?) = (t.performAll requests).1 := by
  induction requests generalizing s t with
  | nil => rfl
  | cons request requests ih =>
    obtain ⟨hanswer, hshows⟩ := h.perform request
    exact List.cons_eq_cons.2 ⟨hanswer, ih hshows⟩

/-! ### Only open frames are looked at -/

/-- Whatever scopes do next, they look at open frames only. -/
structure Safe (s : Scopes) : Prop where
  /-- The current frame is open. -/
  top : ∃ f, s.top? = some f
  /-- A search goes from an open frame to the one that it names as its parent, which is open as well and
  stands before it. -/
  search : ∀ name i, i < s.depth → ∃ f, s.frames[i]? = some f ∧
    (∀ p, f.parent = some p → p < i) ∧
    binder? s.frames name i =
      if f.names.contains name then some i else f.parent.bind (binder? s.frames name)
  /-- A frame that is closed has a parent. -/
  pop : s.current ≠ 0 → ∃ f p, s.frames.back? = some f ∧ f.parent = some p ∧
    s.pop = (some f, ⟨s.frames.pop, p⟩)

theorem WellFormed.safe {s : Scopes} (h : s.WellFormed) : s.Safe := by
  have hcurrent : s.current + 1 = s.frames.size := h.current
  have hframe : ∀ i, i < s.depth → ∃ f, s.frames[i]? = some f := fun i hi =>
    ⟨s.frames[i], Array.getElem?_eq_getElem hi⟩
  have hparent : ∀ {i f p}, s.frames[i]? = some f → f.parent = some p → p + 1 = i := by
    intro i f p hf hp
    rw [h.parent i f hf] at hp
    split at hp
    · cases hp
    · cases hp
      omega
  refine ⟨hframe _ (by rw [depth]; omega), fun name i hi => ?_, fun hroot => ?_⟩
  · obtain ⟨f, hf⟩ := hframe i hi
    refine ⟨f, hf, fun p hp => by have := hparent hf hp; omega, ?_⟩
    rw [binder?, hf]
    simp only
    split
    · rfl
    · rcases hp : f.parent with - | p
      · rfl
      · have hlt := hparent hf hp
        exact if_pos (by omega)
  · obtain ⟨f, hf⟩ := hframe s.current (by rw [depth]; omega)
    have hlast : s.frames.back? = some f := by
      rw [Array.back?_eq_getElem?, ← hcurrent, Nat.add_sub_cancel, hf]
    have hp : f.parent = some (s.current - 1) := by rw [h.parent _ f hf, if_neg hroot]
    refine ⟨f, _, hlast, hp, ?_⟩
    rw [Scopes.pop, if_neg hroot, hlast]
    simp only [hp, Option.getD_some]

theorem Built.perform {s : Scopes} (h : s.Built) (request : Request) : (s.perform request).2.Built := by
  cases request with
  | push kind => exact .push kind h
  | pop => exact .pop h
  | define name v => exact .define name v h
  | reassign name v => exact .reassign name v h
  | setResult v => exact .setResult v h
  | lookup | result | root | depth => exact h

theorem Built.performAll {s : Scopes} (h : s.Built) (requests : List Request) :
    (s.performAll requests).2.Built := by
  induction requests generalizing s with
  | nil => exact h
  | cons request requests ih => exact ih (h.perform request)

/-- **Scopes are a stack of maps.**  After any requests to new scopes there is at least one frame, the
current frame is the last one, and each frame but the first has the one before it as its parent, so that
only open frames are ever looked at.  All answers are those of a stack of maps. -/
theorem performAll_eq_stack (requests : List Request) :
    (fresh.performAll requests).2.WellFormed ∧
    (fresh.performAll requests).2.Safe ∧
    (fresh.performAll requests).1.map (Answer.map Dictionary.get?) =
      (Stack.bottom.performAll requests).1 := by
  have hordered := (Built.fresh.performAll requests).wellFormed
  exact ⟨hordered, hordered.safe, shows_fresh.performAll requests⟩

end Scopes

end TableScript
