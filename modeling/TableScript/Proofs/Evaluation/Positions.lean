import TableScript.Proofs.Evaluation.Following

/-!
# Positions do not influence evaluation

The lines of code, the files that functions note, the names of imports and the file that is running are
there for errors.  Nothing that a program does depends on them.  Two programs that are the same but for
these things, on two machines that are, do the same but for these things: both diverge, or both end, in
success or with the same root error up to its line, and the machines that they leave are the same but for
positions again (`positions_irrelevant`).

What is left when positions are erased is a program and a machine as well.  So the two runs need not be
compared with one another: each is followed by the run of what it becomes (`execute_erasePositions`), and
that is the same for both.  An import or a call may enter a new file in one run and stay in the same file
in the other, so marks cannot be kept in step, and errors are compared by their roots alone.
-/

namespace TableScript

/-- A cause without its line. -/
def Cause.eraseLine : Cause → Cause
  | .lexical _ e => .lexical 0 e
  | .grammar _ e => .grammar 0 e
  | .unavailable file details => .unavailable file details
  | .runtime _ e => .runtime 0 e

/-- What went wrong, wherever it was. -/
def Error.root (e : Error) : Cause := e.cause.eraseLine

/-- What went wrong, if anything did. -/
def Stop.root? : Stop → Option Cause
  | .failed e => some e.root
  | .outOfFuel => none

/-- A program without lines, files and names of imports. -/
def Program.erasePositions (p : Program) : Program := relabelAll .erasing () p

/-- A machine that holds functions without positions, and runs in no file. -/
def Machine.erasePositions (m : Machine) : Machine where
  scopes := m.scopes.mapValues (Value.relabel .erasing ())
  tables := m.tables.mapValues (Value.relabel .erasing ())
  limits := m.limits
  callDepth := m.callDepth

/-- The same but for positions. -/
def Likeness.unplaced : Likeness (Comparison.terms { relabeling := .erasing }) where
  file _ _ := True
  same s s' := s.root? = s'.root?

theorem Likeness.uniform_unplaced : unplaced.Uniform where
  nodes _ := trivial
  known _ := trivial
  fresh _ := trivial
  mark _ _ := id
  mark' _ _ := id
  second _ := id
  failure _ _ := rfl
  fuel := .inr ⟨rfl, rfl⟩
  calls h := .inl (congrArg Limits.callDepth h.symm)
  depth h := h

namespace Run

theorem root?_inFile (name : String) (s : Stop) : (s.inFile name).root? = s.root? := by
  cases s with
  | failed e => rfl
  | outOfFuel => rfl

theorem parametric_unplaced : Parametric { relabeling := .erasing } (Follows Likeness.unplaced) := by
  refine parametric_follows Likeness.uniform_unplaced fun {_ _ _ _ _ file file'} _ hx => ?_
  have hl := Likeness.uniform_unplaced.toLawful
  refine .inFile_left hl (fun _ _ => trivial) ?_ file (.inFile_right hl (fun _ _ => trivial) ?_ file' hx)
  · exact fun name s s' hs => (root?_inFile name s).trans hs
  · exact fun name s s' hs => hs.trans (root?_inFile name s').symm

theorem Concur.root?_eq {r r' : Except Stop Unit}
    (h : Concur (fun s s' => s.root? = s'.root?) (fun _ _ => True) r r') :
    r.mapError Stop.root? = r'.mapError Stop.root? := by
  cases h with
  | value _ => rfl
  | stop hs => exact congrArg Except.error hs

/-- Erasing positions before a run is as good as erasing them after it. -/
theorem execute_erasePositions (fuel : Nat) (p : Program) (m : Machine) :
    (execute fuel p m).1.mapError Stop.root? =
        (execute fuel p.erasePositions m.erasePositions).1.mapError Stop.root? ∧
      (execute fuel p m).2.erasePositions =
        { (execute fuel p.erasePositions m.erasePositions).2 with file := none } := by
  have hm : m.Like Likeness.unplaced m.erasePositions :=
    (Machine.Like.eq_mapValues_iff Likeness.uniform_unplaced).2 ⟨rfl, rfl, rfl, rfl, trivial⟩
  have hrun : EndsLike Likeness.unplaced (fun _ _ => True) (execute fuel p m)
      (execute fuel p.erasePositions m.erasePositions) := by
    have hfollows := follows_execute Likeness.uniform_unplaced parametric_unplaced fuel p hm
    rw [Nat.zero_add] at hfollows
    exact hfollows
  generalize execute fuel p m = left, execute fuel p.erasePositions m.erasePositions = right at hrun ⊢
  obtain ⟨hleft, hend⟩ := hrun.concur (fun _ _ => id) fun _ _ => id
  refine ⟨hend.root?_eq, ?_⟩
  obtain ⟨hscopes, htables, hcalls, hlimits, -⟩ :=
    (Machine.Like.eq_mapValues_iff Likeness.uniform_unplaced).1 hleft
  obtain ⟨r', ⟨scopes, tables, limits, callDepth, file⟩⟩ := right
  cases hscopes
  cases htables
  cases hcalls
  cases hlimits
  rfl

section Two

variable {p p' : Program} {m m' : Machine}
variable (hp : p.erasePositions = p'.erasePositions) (hm : m.erasePositions = m'.erasePositions)

include hp hm

theorem execute_of_erasePositions_eq (fuel : Nat) :
    (execute fuel p m).1.mapError Stop.root? = (execute fuel p' m').1.mapError Stop.root? ∧
      (execute fuel p m).2.erasePositions = (execute fuel p' m').2.erasePositions := by
  obtain ⟨hend, hleft⟩ := execute_erasePositions fuel p m
  obtain ⟨hend', hleft'⟩ := execute_erasePositions fuel p' m'
  rw [hp, hm] at hend hleft
  exact ⟨hend.trans hend'.symm, hleft.trans hleft'.symm⟩

theorem diverges_of_erasePositions_eq (h : Diverges p m) : Diverges p' m' := by
  intro fuel
  obtain ⟨hend, -⟩ := execute_of_erasePositions_eq hp hm fuel
  rw [h fuel] at hend
  generalize (execute fuel p' m').1 = r at hend ⊢
  rcases r with (e | _) | _
  · cases hend
  · rfl
  · cases hend

theorem finishes_of_erasePositions_eq {r : Except Error Unit} {m₁ : Machine}
    (h : Finishes p m r m₁) :
    ∃ r' m₁', Finishes p' m' r' m₁' ∧ r.mapError Error.root = r'.mapError Error.root ∧
      m₁.erasePositions = m₁'.erasePositions := by
  obtain ⟨fuel, hrun⟩ := h
  obtain ⟨hend, hleft⟩ := execute_of_erasePositions_eq hp hm fuel
  rw [hrun] at hend hleft
  rcases hrun' : execute fuel p' m' with ⟨(e | _) | _, m₁'⟩
  · rw [hrun'] at hend hleft
    refine ⟨.error e, m₁', ⟨fuel, hrun'⟩, ?_, hleft⟩
    cases r with
    | error e' => exact congrArg Except.error (Option.some.inj (Except.error.inj hend))
    | ok _ => cases hend
  · rw [hrun'] at hend
    cases r <;> cases hend
  · rw [hrun'] at hend hleft
    refine ⟨.ok (), m₁', ⟨fuel, hrun'⟩, ?_, hleft⟩
    cases r with
    | error e' => cases hend
    | ok _ => rfl

end Two

/-- **Positions do not influence evaluation.**  Take two programs that differ in nothing but lines, the
files that functions note and the names of imports, and two machines that differ in nothing but these and
the file that is running.  The programs both diverge on them, or both end.  In the end both succeeded or
both failed with the same root error up to its line, and the machines again differ in nothing else. -/
theorem positions_irrelevant (p p' : Program) (m m' : Machine)
    (hp : p.erasePositions = p'.erasePositions) (hm : m.erasePositions = m'.erasePositions) :
    (Diverges p m ↔ Diverges p' m') ∧
      ∀ r m₁, Finishes p m r m₁ → ∃ r' m₁', Finishes p' m' r' m₁' ∧
        r.mapError Error.root = r'.mapError Error.root ∧ m₁.erasePositions = m₁'.erasePositions := by
  refine ⟨⟨?_, ?_⟩, fun r m₁ hfinishes => finishes_of_erasePositions_eq hp hm hfinishes⟩
  · exact diverges_of_erasePositions_eq hp hm
  · exact diverges_of_erasePositions_eq hp.symm hm.symm

/-- An import that calls the function `f`. -/
def callsInFile (file : String) (line : Nat) : Program :=
  [.get line file [.expr (line + 1) (.call (line + 2) (.var (line + 2) "f") [])]]

/-- A machine that runs in a file, with a function of that file that fails. -/
def runningIn (file : Option String) (line : Nat) : Machine where
  scopes := Scopes.fresh.define "f"
    (.function (.mk 1 line file [] (.mk line [.expr line (.var line "x")])))
  file := file

/-- A script calls a function of its own in an imported file, and a file does so in an import of itself.
The first error is marked with the imported file and the second is not marked at all; the root is the
same. -/
theorem positions_irrelevant_callsInFile :
    ((callsInFile "lib" 3).erasePositions = (callsInFile "main" 7).erasePositions ∧
      (runningIn none 1).erasePositions = (runningIn (some "main") 5).erasePositions) ∧
    Finishes (callsInFile "lib" 3) (runningIn none 1)
      (.error ⟨.runtime 1 (.undefinedName "x"), ["lib"]⟩) (runningIn none 1) ∧
    ∃ r m₁, Finishes (callsInFile "main" 7) (runningIn (some "main") 5) r m₁ ∧
      .error (.runtime 0 (.undefinedName "x")) = r.mapError Error.root ∧
      (runningIn none 1).erasePositions = m₁.erasePositions := by
  have hfinishes : Finishes (callsInFile "lib" 3) (runningIn none 1)
      (.error ⟨.runtime 1 (.undefinedName "x"), ["lib"]⟩) (runningIn none 1) :=
    ⟨6, by with_unfolding_all rfl⟩
  have hp : (callsInFile "lib" 3).erasePositions = (callsInFile "main" 7).erasePositions := by
    with_unfolding_all rfl
  have hm : (runningIn none 1).erasePositions = (runningIn (some "main") 5).erasePositions := by
    with_unfolding_all rfl
  exact ⟨⟨hp, hm⟩, hfinishes, (positions_irrelevant _ _ _ _ hp hm).2 _ _ hfinishes⟩

end Run

end TableScript
