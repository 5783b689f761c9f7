/-!
# Actions

A computation of type `Action σ ε α` works on a state `σ` and ends with a value or a failure.
What it did to the state before it failed stays done: a parser that fails has consumed the tokens
it consumed, a script that fails has made the bindings it made.

Both the parser and the evaluator are actions, so the facts about sequencing are proved here once.
-/

namespace TableScript

/-- A computation on a state `σ` that yields an `α` or fails with an `ε`, keeping the state either
way. -/
def Action (σ ε α : Type) : Type := σ → Except ε α × σ

namespace Action

variable {σ ε α β : Type}

/-- Yields a value and leaves the state alone. -/
@[inline] protected def pure (a : α) : Action σ ε α := fun s => (.ok a, s)

/-- Runs `x`, then `f` on its value, in the state that `x` left behind. -/
@[inline] protected def bind (x : Action σ ε α) (f : α → Action σ ε β) : Action σ ε β := fun s =>
  match x s with
  | (.ok a, s') => f a s'
  | (.error e, s') => (.error e, s')

instance : Monad (Action σ ε) where
  pure := Action.pure
  bind := Action.bind

/-- Fails and leaves the state alone. -/
@[inline] def fail (e : ε) : Action σ ε α := fun s => (.error e, s)

/-- Yields a view of the state. -/
@[inline] def read (f : σ → α) : Action σ ε α := fun s => (.ok (f s), s)

/-- Changes the state. -/
@[inline] def modify (f : σ → σ) : Action σ ε Unit := fun s => (.ok (), f s)

/-- Changes the state and yields what the change produced. -/
@[inline] def update (f : σ → α × σ) : Action σ ε α := fun s =>
  match f s with
  | (a, s') => (.ok a, s')

/-- A result that was found without looking at the state. -/
@[inline] def ofExcept : Except ε α → Action σ ε α
  | .ok a => .pure a
  | .error e => .fail e

/-- Changes the failure, if there is one. -/
@[inline] def mapError (f : ε → ε) (x : Action σ ε α) : Action σ ε α := fun s =>
  match x s with
  | (.ok a, s') => (.ok a, s')
  | (.error e, s') => (.error (f e), s')

/-- Runs `x` between `enter` and `leave`; `leave` is applied also when `x` fails. -/
@[inline] def between (enter leave : σ → σ) (x : Action σ ε α) : Action σ ε α := fun s =>
  match x (enter s) with
  | (r, s') => (r, leave s')

/-! ### What each action does to a state -/

variable (s : σ)

@[simp] theorem pure_apply (a : α) : (pure a : Action σ ε α) s = (.ok a, s) := rfl

theorem bind_apply (x : Action σ ε α) (f : α → Action σ ε β) :
    (x >>= f) s = match x s with
      | (.ok a, s') => f a s'
      | (.error e, s') => (.error e, s') := rfl

@[simp] theorem fail_apply (e : ε) : (fail e : Action σ ε α) s = (.error e, s) := rfl

@[simp] theorem read_apply (f : σ → α) : (read f : Action σ ε α) s = (.ok (f s), s) := rfl

@[simp] theorem modify_apply (f : σ → σ) : (modify f : Action σ ε Unit) s = (.ok (), f s) := rfl

@[simp] theorem update_apply (f : σ → α × σ) :
    (update f : Action σ ε α) s = (.ok (f s).1, (f s).2) := rfl

@[simp] theorem between_apply (enter leave : σ → σ) (x : Action σ ε α) :
    between enter leave x s = ((x (enter s)).1, leave (x (enter s)).2) := rfl

@[simp] theorem mapError_apply (f : ε → ε) (x : Action σ ε α) :
    mapError f x s = ((x s).1.mapError f, (x s).2) := by
  unfold mapError
  rcases x s with ⟨_ | a, s'⟩
  · rfl
  · rfl

theorem bind_of_ok {x : Action σ ε α} {f : α → Action σ ε β} {a : α} {s s' : σ}
    (h : x s = (.ok a, s')) : (x >>= f) s = f a s' := by
  rw [bind_apply, h]

theorem bind_of_error {x : Action σ ε α} {f : α → Action σ ε β} {e : ε} {s s' : σ}
    (h : x s = (.error e, s')) : (x >>= f) s = (.error e, s') := by
  rw [bind_apply, h]

theorem ofExcept_eq_ok_iff {r : Except ε α} {a : α} {s s' : σ} :
    ofExcept r s = (.ok a, s') ↔ r = .ok a ∧ s = s' := by
  rcases r with e | b
  · exact ⟨fun h => (by cases h), fun h => (by cases h.1)⟩
  · show ((.ok b, s) : Except ε α × σ) = (.ok a, s') ↔ _
    simp

/-- Two computations one after the other succeed exactly when both do. -/
theorem bind_eq_ok_iff {x : Action σ ε α} {f : α → Action σ ε β} {b : β} {s s' : σ} :
    (x >>= f) s = (.ok b, s') ↔ ∃ a t, x s = (.ok a, t) ∧ f a t = (.ok b, s') := by
  rw [bind_apply]
  rcases x s with ⟨_ | a, t⟩
  · simp
  · exact ⟨fun h => ⟨a, t, rfl, h⟩, fun ⟨_, _, h, h'⟩ => by cases h; exact h'⟩

end Action

end TableScript
