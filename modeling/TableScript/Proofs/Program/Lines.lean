import TableScript.Error
import TableScript.Proofs.Program.Relabeling
import TableScript.Token

/-!
# The lines that a text gives

Where something stands in a text is kept as the number of its line: in each token, in each node of the
tree, and in an error.  `mapLines` changes these numbers by a function and nothing else.  It keeps to
the text itself.  An import holds a tree that comes from another text, and an error that was marked
with a file is about that file, so neither is changed.

On trees this is a relabeling that tells the text from what it imports (`Relabeling.ofText`).  In the same
way `noting` replaces the file that the function literals of a text note.
-/

namespace TableScript

/-! ### Tokens and errors -/

/-- A token on another line. -/
def Located.mapLine (f : Nat → Nat) (t : Located) : Located := { t with line := f t.line }

/-- A cause on another line, if it has one. -/
def Cause.mapLine (f : Nat → Nat) : Cause → Cause
  | .lexical line e => .lexical (f line) e
  | .grammar line e => .grammar (f line) e
  | .unavailable file details => .unavailable file details
  | .runtime line e => .runtime (f line) e

/-- An error on another line, unless it comes from another text. -/
def Error.mapLine (f : Nat → Nat) (e : Error) : Error :=
  match e.files with
  | [] => { e with cause := e.cause.mapLine f }
  | _ :: _ => e

/-- An error of an import stays as it is. -/
theorem Error.mapLine_inFile (f : Nat → Nat) (e : Error) (file : String) :
    (e.inFile file).mapLine f = e.inFile file := rfl

theorem Error.mapLine_id (e : Error) : e.mapLine (fun line => line) = e := by
  obtain ⟨cause, files⟩ := e
  cases files with
  | nil => cases cause <;> rfl
  | cons name files => rfl

theorem Error.mapLine_mapLine (f g : Nat → Nat) (e : Error) :
    (e.mapLine g).mapLine f = e.mapLine fun line => f (g line) := by
  obtain ⟨cause, files⟩ := e
  cases files with
  | nil => cases cause <;> rfl
  | cons name files => rfl

/-- A value that is changed by `g`, or an error on another line. -/
def mapResult {α β : Type} (f : Nat → Nat) (g : α → β) : Except Error α → Except Error β
  | .ok a => .ok (g a)
  | .error e => .error (e.mapLine f)

/-! ### Trees -/

/-- Changes the lines of a text and the files that its function literals note, and leaves the programs that
it imports alone.  A position says whether code is of the text itself. -/
def Relabeling.ofText (line : Nat → Nat) (noted : Option String → Option String) :
    Relabeling Bool where
  line
    | true => line
    | false => fun n => n
  noted
    | true => noted
    | false => fun file => file
  name _ name := name
  body own _ := own
  imported _ _ := false

/-- What is imported stays as it is. -/
theorem relabelAll_ofText_false (line : Nat → Nat) (noted : Option String → Option String)
    (ss : List Stmt) : relabelAll (.ofText line noted) false ss = ss := by
  have halike : (Relabeling.ofText line noted).Alike .id fun own _ => own = false :=
    { line := by
        rintro _ _ rfl _
        rfl
      noted := by
        rintro _ _ rfl _
        rfl
      name := fun _ _ => rfl
      body := fun h _ => h
      imported := fun _ _ => rfl }
  rw [relabelAll_congr halike rfl, relabelAll_id]

/-- A program with other lines. -/
def Program.mapLines (f : Nat → Nat) (p : Program) : Program :=
  relabelAll (.ofText f fun file => file) true p

/-- A program whose own function literals note `file`. -/
def Program.noting (file : Option String) (p : Program) : Program :=
  relabelAll (.ofText (fun line => line) fun _ => file) true p

/-! Leaving all lines and files as they are. -/

theorem Relabeling.alike_ofText_id :
    (ofText (fun line => line) fun file => file).Alike .id fun _ _ => True where
  line {own _} _ _ := by cases own <;> rfl
  noted {own _} _ _ := by cases own <;> rfl
  name _ _ := rfl
  body _ _ := trivial
  imported _ _ := trivial

theorem Expr.relabel_ofText_id (e : Expr) :
    e.relabel (.ofText (fun line => line) fun file => file) true = e := by
  rw [e.relabel_congr Relabeling.alike_ofText_id trivial, e.relabel_id]

theorem Stmt.relabel_ofText_id (s : Stmt) :
    s.relabel (.ofText (fun line => line) fun file => file) true = s := by
  rw [s.relabel_congr Relabeling.alike_ofText_id trivial, s.relabel_id]

theorem Program.mapLines_id (p : Program) : p.mapLines (fun line => line) = p := by
  rw [mapLines, relabelAll_congr Relabeling.alike_ofText_id trivial, relabelAll_id]

end TableScript
