import TableScript.Proofs.Evaluation.Lines
import TableScript.Proofs.Evaluation.Returning
import TableScript.Proofs.Reading.Pieces

/-!
# Scripts that are fed in pieces

A script can be cut behind any of its statements and fed to an interpreter piece by piece.  If the first
piece is a program, then the whole script is one exactly if the second piece is, and its statements are
those of the two pieces (`Program.read_append`).  Then running the script is running the first piece and,
if that succeeds, the second (`run_in_pieces`).

Nothing is different but the lines of the second piece: fed by itself it starts on line one, and in the
script it starts as many lines further down as the first piece has line breaks.  Function literals get the
same tags, since the literals of the second piece are numbered behind those of the first.

An interpreter that is between two requests is not in a call, so the first piece does not return
(`not_inCall_after`).
-/

namespace TableScript

namespace Interpreter

variable {i : Interpreter} {fuel : Nat} {source : String} {p : Program}

/-! ### Between two requests -/

/-- A request changes the current frame of the machine and the tags, and nothing else. -/
theorem change_accept_bind (hdepth : 0 < i.machine.scopes.depth)
    (read : Interpreter → Except Error Program) {x : Program → Run Unit}
    (hx : ∀ program, Run.Keeps Frame.Grown (x program)) :
    i.machine.Change Frame.Grown
        ((accept read >>= fun program => onMachine (x program)) i).2.machine ∧
      ((accept read >>= fun program => onMachine (x program)) i).2.load = i.load := by
  rw [Action.bind_apply]
  rcases hread : read i with e | program
  · simp only [accept, hread, and_true]
    exact .refl _
  · simp only [accept, hread, onMachine, and_true]
    exact hx _ i.machine hdepth

theorem change_perform (hdepth : 0 < i.machine.scopes.depth) (fuel : Nat) (request : Request) :
    i.machine.Change Frame.Grown (request.perform fuel i).2.machine ∧
      (request.perform fuel i).2.load = i.load := by
  cases request with
  | run source => exact change_accept_bind hdepth _ fun program => Run.keeps_execute fuel program
  | runFile name =>
    exact change_accept_bind hdepth _ fun program => (Run.keeps_execute fuel program).inFile (some name)

theorem change_after (hdepth : 0 < i.machine.scopes.depth) (requests : List (Nat × Request)) :
    i.machine.Change Frame.Grown (i.after requests).machine ∧ (i.after requests).load = i.load := by
  induction requests generalizing i with
  | nil => exact ⟨.refl _, rfl⟩
  | cons request requests ih =>
    obtain ⟨hfirst, hload⟩ := change_perform hdepth request.1 request.2
    obtain ⟨hrest, hload'⟩ := ih (hfirst.depth_pos hdepth)
    exact ⟨hfirst.trans hrest, hload'.trans hload⟩

/-- Between two requests no call is open. -/
theorem not_inCall_after (limits : Limits) (load : Loader) (requests : List (Nat × Request)) :
    ¬ ((new limits load).after requests).machine.scopes.InCall := by
  intro hcall
  obtain ⟨hchange, -⟩ := change_after (i := new limits load) Nat.one_pos requests
  obtain ⟨f, hf, hkind⟩ := hcall.of_change hchange.scopes
  cases hf
  cases hkind

/-! ### Running what was read -/

/-- Two ends that come from the same marked run, with the marked lines raised by `k` in the second. -/
structure RaisedFrom (marked : Except Stop Unit × Machine) (k : Nat)
    (x x' : Except Stop Unit × Interpreter) : Prop where
  first : (x.1, x.2.machine) = Run.unmark 0 marked
  second : (x'.1, x'.2.machine) = Run.unmark k marked
  load : x'.2.load = x.2.load
  nextTag : x'.2.nextTag = x.2.nextTag

theorem run_of_parse (h : i.parse source = .ok p) (fuel : Nat) :
    run fuel source i =
      ((Run.execute fuel (p.label i.nextTag).1 i.machine).1,
        { i with
          machine := (Run.execute fuel (p.label i.nextTag).1 i.machine).2
          nextTag := (p.label i.nextTag).2 }) := by
  rw [run, Action.bind_apply]
  simp only [accept, h, onMachine]

section Two

variable {source' : String} {p' : Program} (hp : i.parse source = .ok p)
  (hp' : i.parse source' = .ok p')

include hp hp'

/-- The script is read as both pieces, and its literals are numbered as those of one and then the
other. -/
theorem run_append_eq (fuel : Nat) :
    run fuel (source ++ source') i =
      ((Run.execute fuel ((p.label i.nextTag).1 ++ Program.mapLines (· + source.toList.count '\n')
          (p'.label (p.label i.nextTag).2).1) i.machine).1,
        { i with
          machine := (Run.execute fuel ((p.label i.nextTag).1 ++
            Program.mapLines (· + source.toList.count '\n') (p'.label (p.label i.nextTag).2).1)
              i.machine).2
          nextTag := (p'.label (p.label i.nextTag).2).2 }) := by
  have hread : i.parse (source ++ source') =
      .ok (p ++ Program.mapLines (· + source.toList.count '\n') p') := by
    have happend := Program.read_append hp source'
    rw [show Program.read i.load i.machine.limits none.toList source' = .ok p' from hp'] at happend
    exact happend
  rw [run_of_parse hread]
  simp only [Program.label, labelAll_append, labelAll_mapLines]

/-- Where no call is open, the script is run as one piece and then the other. -/
theorem run_append (hdepth : 0 < i.machine.scopes.depth) (hcall : ¬ i.machine.scopes.InCall)
    (fuel : Nat) :
    match run fuel source i with
    | (.error stop, i₁) => ∃ nextTag,
      run fuel (source ++ source') i = (.error stop, { i₁ with nextTag })
    | (.ok _, i₁) =>
      Run.RaisedEnd (source.toList.count '\n') (run fuel source' i₁).1
          (run fuel (source ++ source') i).1 ∧
        RaisedFrom (Run.executeMarked fuel (p'.label i₁.nextTag).1 i₁.machine)
          (source.toList.count '\n') (run fuel source' i₁) (run fuel (source ++ source') i) := by
  rw [run_append_eq hp hp' fuel, run_of_parse hp, Run.execute_append fuel _ _ hdepth hcall,
    Action.bind_apply]
  have hchange := Run.keeps_execute fuel (p.label i.nextTag).1 i.machine hdepth
  generalize Run.execute fuel (p.label i.nextTag).1 i.machine = first at hchange ⊢
  obtain ⟨stop | _, m₁⟩ := first
  · exact ⟨_, rfl⟩
  · -- the second piece is read as before, since the limits are the same
    have hread : parse { i with machine := m₁, nextTag := (p.label i.nextTag).2 } source' = .ok p' := by
      rw [← hp', parse, parse]
      exact congrArg (fun limits => Program.ofSource i.load limits none source') hchange.limits
    simp only [run_of_parse hread, Run.execute_raised_eq_unmark]
    rw [Run.execute_eq_unmark]
    exact ⟨Run.raisedEnd_unmark _ _, rfl, rfl, rfl, rfl⟩

end Two

/-- **Scripts can be fed in pieces.**  Let the first piece be a program.  The whole script is read as the
first piece followed by the second, which stands as many lines further down as the first has line breaks,
and fails to be read if the second does.  If both are programs, then between any two requests running the
script is running the first piece and, if that succeeds, the second: with the same end and the same
machine, but for the lines of the second piece's own nodes. -/
theorem run_in_pieces (limits : Limits) (load : Loader) (source source' : String) :
    (∀ origin p, Program.ofSource load limits origin source = .ok p →
      Program.ofSource load limits origin (source ++ source') =
        mapResult (· + source.toList.count '\n')
          (fun p' => p ++ Program.mapLines (· + source.toList.count '\n') p')
          (Program.ofSource load limits origin source')) ∧
    ∀ requests fuel p p', Program.ofSource load limits none source = .ok p →
      Program.ofSource load limits none source' = .ok p' →
        match run fuel source ((new limits load).after requests) with
        | (.error stop, i₁) => ∃ nextTag,
          run fuel (source ++ source') ((new limits load).after requests) =
            (.error stop, { i₁ with nextTag })
        | (.ok _, i₁) =>
          Run.RaisedEnd (source.toList.count '\n') (run fuel source' i₁).1
              (run fuel (source ++ source') ((new limits load).after requests)).1 ∧
            RaisedFrom (Run.executeMarked fuel (p'.label i₁.nextTag).1 i₁.machine)
              (source.toList.count '\n') (run fuel source' i₁)
              (run fuel (source ++ source') ((new limits load).after requests)) := by
  refine ⟨fun origin p hp => Program.read_append hp source', fun requests fuel p p' hp hp' => ?_⟩
  obtain ⟨hchange, hload⟩ := change_after (i := new limits load) Nat.one_pos requests
  have hparse (text : String) : ((new limits load).after requests).parse text =
      Program.ofSource load limits none text := by
    rw [parse, hload, hchange.limits]
    rfl
  exact run_append ((hparse source).trans hp) ((hparse source').trans hp')
    (hchange.depth_pos Nat.one_pos) (not_inCall_after limits load requests) fuel

/-- A function on three lines that returns what `y` is. -/
def firstPiece : String := "f = Function(x) \x7b\nReturn y;\n\x7d;\n"

/-- A function on the second line that is given the first and fails by itself. -/
def secondPiece : String := "g = f;\nh = Function(k) \x7bReturn z;\x7d;\nh(g);"

/-- A request that defines `y` and then fails. -/
def failingRequest : List (Nat × Request) := [(9, .run "y = True; y();")]

/-- Fed by itself, the second piece fails on line two, in an interpreter that failed before. -/
theorem run_in_pieces_failingPiece :
    ∃ p p' i₁ i₂, Program.ofSource (Loader.ofList []) {} none firstPiece = .ok p ∧
      Program.ofSource (Loader.ofList []) {} none secondPiece = .ok p' ∧
      run 9 firstPiece ((new {} (Loader.ofList [])).after failingRequest) = (.ok (), i₁) ∧
      run 9 secondPiece i₁ = (.error (.failed (.runtime 2 (.undefinedName "z"))), i₂) ∧
      Run.RaisedEnd 3 (.error (.failed (.runtime 2 (.undefinedName "z"))))
        (run 9 (firstPiece ++ secondPiece) ((new {} (Loader.ofList [])).after failingRequest)).1 ∧
      RaisedFrom (Run.executeMarked 9 (p'.label i₁.nextTag).1 i₁.machine) 3
        (.error (.failed (.runtime 2 (.undefinedName "z"))), i₂)
        (run 9 (firstPiece ++ secondPiece) ((new {} (Loader.ofList [])).after failingRequest)) := by
  obtain ⟨p, hp⟩ : ∃ p, Program.ofSource (Loader.ofList []) {} none firstPiece = .ok p :=
    ⟨_, by with_unfolding_all rfl⟩
  obtain ⟨p', hp'⟩ : ∃ p, Program.ofSource (Loader.ofList []) {} none secondPiece = .ok p :=
    ⟨_, by with_unfolding_all rfl⟩
  obtain ⟨i₁, i₂, hfirst, hsecond⟩ : ∃ i₁ i₂,
      run 9 firstPiece ((new {} (Loader.ofList [])).after failingRequest) = (.ok (), i₁) ∧
      run 9 secondPiece i₁ = (.error (.failed (.runtime 2 (.undefinedName "z"))), i₂) :=
    ⟨_, _, Prod.ext (by decide +kernel) rfl, Prod.ext (by decide +kernel) rfl⟩
  have hbreaks : firstPiece.toList.count '\n' = 3 := by decide
  have hrun := (run_in_pieces {} (Loader.ofList []) firstPiece secondPiece).2 failingRequest 9 p p' hp hp'
  rw [hfirst, hbreaks] at hrun
  simp only [hsecond] at hrun
  exact ⟨p, p', i₁, i₂, hp, hp', hfirst, hsecond, hrun⟩

end Interpreter

end TableScript
