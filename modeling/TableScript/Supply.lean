/-!
# Supplies

A supply is a number of steps that is drawn from one step at a time. It is built as it is used, so
that a supply of more steps than could ever be counted costs nothing until they are taken.
`Supply.texts` is such a number: it exceeds that of the texts of a given length.
-/

namespace TableScript

/-- A number of steps, of which only the next is at hand. -/
inductive Supply where
  | empty
  | more (rest : Unit → Supply)

namespace Supply

/-- How many steps a supply has. -/
def size : Supply → Nat
  | .empty => 0
  | .more rest => (rest ()).size + 1

/-- Puts something before `rest` as often as `k` says. -/
def times (add : (Unit → Supply) → Supply) (rest : Unit → Supply) : Nat → Supply
  | 0 => rest ()
  | k + 1 => add fun _ => times add rest k

/-- Puts `b ^ n` steps before `rest`. -/
def power (b : Nat) : Nat → (Unit → Supply) → Supply
  | 0, rest => .more rest
  | n + 1, rest => times (power b n) rest b

/-- `b ^ n` steps, then `b ^ (n + 1)`, and so on for `k` powers. -/
def powers (b : Nat) : Nat → Nat → Supply
  | _, 0 => .empty
  | n, k + 1 => power b n fun _ => powers b (n + 1) k

/-- One step more than there are texts of at most `n` characters. -/
def texts (n : Nat) : Supply := .more fun _ => powers (0x10ffff + 1) 0 (n + 1)

/-! ### Sizes -/

theorem size_times {add : (Unit → Supply) → Supply} {c : Nat}
    (h : ∀ rest, (add rest).size = c + (rest ()).size) (rest : Unit → Supply) (k : Nat) :
    (times add rest k).size = k * c + (rest ()).size := by
  induction k with
  | zero => simp [times]
  | succ k ih => rw [times, h, ih, Nat.succ_mul]; omega

theorem size_power (b n : Nat) (rest : Unit → Supply) :
    (power b n rest).size = Nat.pow b n + (rest ()).size := by
  induction n generalizing rest with
  | zero => simp [power, size, Nat.add_comm]
  | succ n ih =>
    rw [power, size_times ih, Nat.mul_comm]
    rfl

/-- The steps of `k` powers are as many as the members of `k` lists of those lengths. -/
theorem size_powers {α : Type} {b n k : Nat} {members : Nat → List α}
    (h : ∀ i, (members i).length = Nat.pow b (n + i)) :
    (powers b n k).size = ((List.range k).flatMap members).length := by
  induction k generalizing n members with
  | zero => rfl
  | succ k ih =>
    have hlater : ∀ i, (members (i + 1)).length = Nat.pow b (n + 1 + i) := by
      intro i
      rw [h, Nat.add_assoc n 1 i, Nat.add_comm 1 i]
    rw [powers, size_power, ih hlater, List.range_succ_eq_map, List.flatMap_cons,
      List.length_append, List.flatMap_map, h 0, Nat.add_zero]

end Supply

end TableScript
