import TableScript.Value

/-!
# Operators on values

Arithmetic and comparison are for numbers; `+` also joins strings. Dividing by zero of either sign
is an error, and so is every other combination of values.
-/

namespace TableScript

/-- A sign before a value. -/
def Sign.apply : Sign → Value → Except RuntimeError Value
  | .plus, .number x => .ok (.number x)
  | .minus, .number x => .ok (.number (-x))
  | op, v => .error (.signMismatch op v.type)

/-- An arithmetic operator between numbers. -/
def ArithOp.onNumbers : ArithOp → Float → Float → Except RuntimeError Float
  | .add, x, y => .ok (x + y)
  | .sub, x, y => .ok (x - y)
  | .mul, x, y => .ok (x * y)
  | .div, x, y => if y == 0 then .error .divisionByZero else .ok (x / y)

/-- An arithmetic operator between values. -/
def ArithOp.apply : ArithOp → Value → Value → Except RuntimeError Value
  | .add, .text s, .text t => .ok (.text (s ++ t))
  | op, .number x, .number y => (op.onNumbers x y).map .number
  | op, v, w => .error (.arithMismatch op v.type w.type)

/-- A comparison between numbers. The undefined number differs from every number, and no other
comparison with it holds. -/
def CompareOp.onNumbers : CompareOp → Float → Float → Bool
  | .equal, x, y => x == y
  | .notEqual, x, y => x != y
  | .greater, x, y => y < x
  | .greaterEqual, x, y => y ≤ x
  | .less, x, y => x < y
  | .lessEqual, x, y => x ≤ y

/-- A comparison between values. -/
def CompareOp.apply : CompareOp → Value → Value → Except RuntimeError Value
  | op, .number x, .number y => .ok (.bool (op.onNumbers x y))
  | op, v, w => .error (.compareMismatch op v.type w.type)

end TableScript
