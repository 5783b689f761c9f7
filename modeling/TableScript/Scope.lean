import TableScript.Value

/-!
# Scopes

Names are bound in frames. A frame is opened by a conditional, a loop or a call, inside of the
current frame, and it is closed before that one is. Each frame knows the frame around it, so a name
is looked up from the current frame outward to the root, which is never closed.
-/

namespace TableScript

/-- What opened a frame. -/
inductive FrameKind where
  /-- The root, a conditional or a loop. -/
  | block
  /-- A call, with the value that it will return. -/
  | function (result : Value)

/-- The names bound in one place. -/
structure Frame where
  names : Dictionary String Value := {}
  /-- The frame around this one; only the root has none. -/
  parent : Option Nat
  kind : FrameKind

/-- The open frames, the root first, and which of them is current. -/
structure Scopes where
  frames : Array Frame
  current : Nat

namespace Scopes

/-- Only the root. -/
def fresh : Scopes := ⟨#[{ parent := none, kind := .block }], 0⟩

instance : Inhabited Scopes := ⟨fresh⟩

/-- The current frame. -/
def top? (s : Scopes) : Option Frame := s.frames[s.current]?

/-- How many frames are open. -/
def depth (s : Scopes) : Nat := s.frames.size

/-- The names bound in the root. -/
def root (s : Scopes) : Dictionary String Value :=
  match s.frames[0]? with
  | some frame => frame.names
  | none => {}

/-- Opens a frame inside of the current one. -/
def push (kind : FrameKind) (s : Scopes) : Scopes where
  frames := s.frames.push { parent := some s.current, kind }
  current := s.frames.size

/-- Closes the current frame and gives it back. The root is not closed. -/
def pop (s : Scopes) : Option Frame × Scopes :=
  if s.current = 0 then (none, s)
  else match s.frames.back? with
    | none => (none, s)
    | some frame => (some frame, ⟨s.frames.pop, frame.parent.getD 0⟩)

/-! ### Names -/

/-- The innermost frame that binds `name`, from frame `i` outward. A frame stands before those
inside of it, so the search only goes down. -/
def binder? (frames : Array Frame) (name : String) (i : Nat) : Option Nat :=
  match frames[i]? with
  | none => none
  | some frame =>
    if frame.names.contains name then some i
    else match frame.parent with
      | none => none
      | some p => if p < i then binder? frames name p else none
termination_by i

/-- The value that a name has in the current frame or around it. -/
def lookup (s : Scopes) (name : String) : Option Value := do
  let i ← binder? s.frames name s.current
  let frame ← s.frames[i]?
  frame.names.get? name

/-- Binds a name in a frame. -/
def bindAt (s : Scopes) (i : Nat) (name : String) (v : Value) : Scopes :=
  { s with frames := s.frames.modify i fun f => { f with names := f.names.insert name v } }

/-- Binds a name in the current frame. -/
def define (s : Scopes) (name : String) (v : Value) : Scopes := s.bindAt s.current name v

/-- The innermost frame around the current one that binds `name`. -/
def outerBinder? (s : Scopes) (name : String) : Option Nat := do
  let frame ← s.top?
  let p ← frame.parent
  binder? s.frames name p

/-- Overwrites the innermost binding of a name around the current frame, and says whether there was
one. The current frame is left alone. -/
def reassign (s : Scopes) (name : String) (v : Value) : Bool × Scopes :=
  match s.outerBinder? name with
  | some i => (true, s.bindAt i name v)
  | none => (false, s)

/-! ### Results of calls -/

/-- The value that the call of the current frame will return, if it is the frame of a call. -/
def result? (s : Scopes) : Option Value :=
  match s.top? with
  | some { kind := .function v, .. } => some v
  | _ => none

/-- Sets the value that the call of the current frame will return, and says whether it is the frame
of a call. -/
def setResult (s : Scopes) (v : Value) : Bool × Scopes :=
  match s.result? with
  | some _ =>
    (true, { s with frames := s.frames.modify s.current fun f => { f with kind := .function v } })
  | none => (false, s)

end Scopes

end TableScript
