/-!
# Counting down to the end of a recursion

Reading imports and printing tables both end because there are finitely many things left that have
not been met yet. `countP_lt_countP` is the step that makes their number go down.
-/

namespace TableScript

/-- A narrower test that leaves out one member of the list selects fewer of its members. -/
theorem countP_lt_countP {α : Type} {p q : α → Bool} {l : List α} {a : α} (ha : a ∈ l)
    (hq : q a) (hp : p a = false) (hpq : ∀ x, p x → q x) : l.countP p < l.countP q := by
  induction l with
  | nil => simp at ha
  | cons b l ih =>
    simp only [List.countP_cons]
    rcases List.mem_cons.1 ha with rfl | hmem
    · have hle : l.countP p ≤ l.countP q := List.countP_mono_left fun x _ => hpq x
      rw [if_pos hq, if_neg (by simp [hp])]
      omega
    · have hlt := ih hmem
      by_cases hb : p b
      · rw [if_pos hb, if_pos (hpq b hb)]
        omega
      · rw [if_neg hb]
        omega

end TableScript
