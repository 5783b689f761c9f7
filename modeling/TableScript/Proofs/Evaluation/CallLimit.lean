import TableScript.Proofs.Evaluation.Following

/-!
# The limit on calls only cuts runs off

How many calls may be active is looked at in one place, where a call is entered, and a call that is not
allowed fails with an error of its own.  So a machine that allows more calls follows one that allows
fewer, up to that error (`execute_allowing`).  A program that comes to any other end comes to the same end
wherever more calls are allowed: with the same error, on the same line and from the same files, and with
the same frames and tables (`finishes_allowing_of_le`).
-/

namespace TableScript

/-- A call was one too many. -/
def Error.IsTooManyCalls (e : Error) : Prop :=
  ∃ line limit, e.cause = .runtime line (.callDepthExceeded limit)

/-- The same machine, with another limit on calls. -/
def Machine.allowing (calls : Nat) (m : Machine) : Machine :=
  { m with limits := { m.limits with callDepth := calls } }

/-- As many calls are allowed or more, if they were enough. -/
def Likeness.moreCalls (calls : Nat) : Likeness (Comparison.terms {}) where
  limits _ x y := x.callDepth ≤ calls ∧ y = { x with callDepth := calls }
  cut s := ∃ e, s = .failed e ∧ e.IsTooManyCalls

theorem Likeness.uniform_moreCalls (calls : Nat) : (moreCalls calls).Uniform where
  nodes _ := trivial
  known _ := trivial
  fresh _ := trivial
  -- the mark of a file does not hide the cause
  mark name _ := fun ⟨e, he, hcause⟩ => ⟨e.inFile name, by rw [he]; rfl, hcause⟩
  mark' _ _ := id
  second _ := id
  failure hline _ := by rw [hline.2]; rfl
  fuel := .inr ⟨rfl, rfl⟩
  calls {_ x _} := by
    rintro ⟨hle, rfl⟩
    exact .inr ⟨hle, fun line => ⟨_, rfl, line, x.callDepth, rfl⟩⟩
  depth h := h

namespace Run

/-- With any fuel, a program has one call too many, or it does the same where more calls are allowed. -/
theorem execute_allowing (fuel : Nat) (p : Program) (m : Machine) {calls : Nat}
    (hle : m.limits.callDepth ≤ calls) :
    (∃ e, (execute fuel p m).1 = .error (.failed e) ∧ e.IsTooManyCalls) ∨
      execute fuel p (m.allowing calls) =
        ((execute fuel p m).1, (execute fuel p m).2.allowing calls) := by
  have hrun := execute_follows_of_id (Likeness.uniform_moreCalls calls) rfl rfl rfl fuel p m _ ⟨hle, rfl⟩
  rcases hrun with ⟨s, hs, e, rfl, hcause⟩ | ⟨_, limits, ⟨-, rfl⟩, hsame⟩
  · exact .inl ⟨e, hs, hcause⟩
  · right
    rw [Nat.zero_add] at hsame
    exact hsame

/-- **The limit on calls only cuts runs off.**  If a program ends, and not because of a call too many,
then it ends in the same way where more calls are allowed. -/
theorem finishes_allowing_of_le (p : Program) (m m' : Machine) (r : Except Error Unit) (calls : Nat)
    (hle : m.limits.callDepth ≤ calls) (hfinishes : Finishes p m r m')
    (henough : ∀ e, r = .error e → ¬ e.IsTooManyCalls) :
    Finishes p (m.allowing calls) r (m'.allowing calls) := by
  obtain ⟨fuel, hrun⟩ := hfinishes
  refine ⟨fuel, ?_⟩
  rcases execute_allowing fuel p m hle with ⟨e, hfails, hcause⟩ | hsame
  · rw [hrun] at hfails
    cases r with
    | error e' =>
      cases hfails
      exact absurd hcause (henough e rfl)
    | ok _ => cases hfails
  · rw [hsame, hrun]

/-- A function of another file, which fails in a call that it makes. -/
def callsUnbound : Routine :=
  .mk 1 1 (some "lib") [] (.mk 1 [.expr 2 (.call 2 (.function 3
    (.mk 2 3 (some "lib") [] (.mk 3 [.expr 4 (.var 4 "x")]))) [])])

/-- A machine on which `f` stands for that function. -/
def callingUnbound : Machine := { scopes := Scopes.fresh.define "f" (.function callsUnbound) }

/-- One call is not enough for the program.  Two are, so that it fails for another reason, and so it
does in the same way with two hundred. -/
theorem finishes_allowing_of_le_callingUnbound :
    Finishes [.expr 1 (.call 1 (.var 1 "f") [])] (callingUnbound.allowing 1)
      (.error ⟨.runtime 2 (.callDepthExceeded 1), ["lib"]⟩) (callingUnbound.allowing 1) ∧
    Finishes [.expr 1 (.call 1 (.var 1 "f") [])] (callingUnbound.allowing 2)
      (.error ⟨.runtime 4 (.undefinedName "x"), ["lib"]⟩) (callingUnbound.allowing 2) ∧
    Finishes [.expr 1 (.call 1 (.var 1 "f") [])] (callingUnbound.allowing 200)
      (.error ⟨.runtime 4 (.undefinedName "x"), ["lib"]⟩) (callingUnbound.allowing 200) := by
  have htwo : Finishes [.expr 1 (.call 1 (.var 1 "f") [])] (callingUnbound.allowing 2)
      (.error ⟨.runtime 4 (.undefinedName "x"), ["lib"]⟩) (callingUnbound.allowing 2) :=
    ⟨6, by with_unfolding_all rfl⟩
  have hmore := finishes_allowing_of_le _ _ _ _ 200 (by decide) htwo fun e he hcalls => by
    obtain ⟨line, limit, hcause⟩ := hcalls
    cases he
    cases hcause
  exact ⟨⟨6, by with_unfolding_all rfl⟩, htwo, hmore⟩

end Run

end TableScript
