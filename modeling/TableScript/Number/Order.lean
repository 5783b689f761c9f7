/-!
# A total order on numbers

The usual order of the doubles says nothing about the undefined number. Here it comes last and
equals itself, and the two zeros are equal; all else is as usual. The order is read off the bits:
without the sign bit they grow with the magnitude.
-/

namespace TableScript.Number

/-- The place of a number in the total order. -/
def rank (x : Float) : Int :=
  let bits : Nat := x.toBits.toNat
  let magnitude : Nat := bits % Nat.pow 2 63
  if 2047 * Nat.pow 2 52 < magnitude then Int.pow 2 63
  else if bits < Nat.pow 2 63 then (magnitude : Int)
  else -(magnitude : Int)

/-- Compares two numbers in the total order. -/
def compareTotal (x y : Float) : Ordering := compare (rank x) (rank y)

end TableScript.Number
