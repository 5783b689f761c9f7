import TableScript.Proofs.Program.Lines

/-!
# Raising the lines of one text

A machine holds code of several texts, and when one of them moves down by some lines, the lines of its
code are raised and the others stay.  To compare the two, all code is given marked lines first: an even
number stands for a line that stays, and an odd one for a line that moves.  Then both are relabelings of
the marked code, by `Relabeling.moved 0` and by `Relabeling.moved k`: these take the marks off a text that
moves (`relabelAll_moved`) and off code that stays (`Relabeling.alike_moved_after_fixed`).
-/

namespace TableScript

/-- What a marked line stands for, with a line that moves raised by `k`. -/
def unmarkLine (k line : Nat) : Nat := line / 2 + line % 2 * k

theorem unmarkLine_even (k line : Nat) : unmarkLine k (2 * line) = line := by simp [unmarkLine]

theorem unmarkLine_odd (k line : Nat) : unmarkLine k (2 * line + 1) = line + k := by
  have hhalf : (2 * line + 1) / 2 = line := by omega
  have hodd : (2 * line + 1) % 2 = 1 := by omega
  rw [unmarkLine, hhalf, hodd, Nat.one_mul]

namespace Relabeling

/-- Marks every line as one that stays. -/
def fixed : Relabeling Unit := .ofLine (2 * ·)

/-- Takes the marks off, with the lines that move raised by `k`. -/
def moved (k : Nat) : Relabeling Unit := .ofLine (unmarkLine k)

theorem alike_moved_after_fixed (k : Nat) :
    ((moved k).after fixed).Alike .id fun _ _ => True where
  line _ line := unmarkLine_even k line
  noted _ _ := rfl
  name _ _ := rfl
  body _ _ := trivial
  imported _ _ := trivial

/-- The lines of a text that moves are marked odd; those of its imports are of other texts, and even. -/
theorem alike_moved_after_marked (k : Nat) :
    (((moved k).after (ofText (· + 1) fun file => file)).after fixed).Alike
      (ofText (· + k) fun file => file) fun p own => p.1.2 = own where
  line := by
    rintro ⟨⟨-, own⟩, -⟩ _ rfl line
    cases own with
    | true => exact unmarkLine_odd k line
    | false => exact unmarkLine_even k line
  noted := by
    rintro ⟨⟨-, own⟩, -⟩ _ rfl file
    cases own <;> rfl
  name _ _ := rfl
  body h _ := h
  imported _ _ := rfl

end Relabeling

/-- The statements of a text that moves, with marked lines. -/
def markAll (ss : List Stmt) : List Stmt := Program.mapLines (· + 1) (relabelAll .fixed () ss)

/-- The marks are taken off, and the text has moved. -/
theorem relabelAll_moved (k : Nat) (ss : List Stmt) :
    relabelAll (.moved k) () (markAll ss) = Program.mapLines (· + k) ss := by
  rw [markAll, Program.mapLines, Program.mapLines, relabelAll_relabelAll, relabelAll_relabelAll]
  exact relabelAll_congr (Relabeling.alike_moved_after_marked k) rfl ss

/-! Function literals are numbered in the same way on other lines, and one program after another. -/

theorem labelAll_mapLines (f : Nat → Nat) (p : Program) (n : Nat) :
    labelAll (p.mapLines f) n = (Program.mapLines f (labelAll p n).1, (labelAll p n).2) :=
  labelAll_relabelAll _ true p n

theorem labelAll_append (ss ss' : List Stmt) (n : Nat) :
    labelAll (ss ++ ss') n =
      ((labelAll ss n).1 ++ (labelAll ss' (labelAll ss n).2).1,
        (labelAll ss' (labelAll ss n).2).2) := by
  induction ss generalizing n with
  | nil => rfl
  | cons s ss ih => simp only [List.cons_append, labelAll, ih]

end TableScript
