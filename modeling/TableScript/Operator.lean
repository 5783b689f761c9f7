/-!
# Operators

The signs, the arithmetic operators and the comparisons, and how each is spelled.
-/

namespace TableScript

/-- The two signs. -/
inductive Sign where
  | plus | minus
deriving Repr, DecidableEq

/-- A sign as it is spelled. -/
def Sign.text : Sign → String
  | .plus => "+"
  | .minus => "-"

/-- The arithmetic operators. -/
inductive ArithOp where
  | add | sub | mul | div
deriving Repr, DecidableEq

/-- An arithmetic operator as it is spelled. -/
def ArithOp.text : ArithOp → String
  | .add => "+"
  | .sub => "-"
  | .mul => "*"
  | .div => "/"

/-- The comparison operators. -/
inductive CompareOp where
  | equal | notEqual | greater | greaterEqual | less | lessEqual
deriving Repr, DecidableEq

/-- A comparison operator as it is spelled. -/
def CompareOp.text : CompareOp → String
  | .equal => "=="
  | .notEqual => "!="
  | .greater => ">"
  | .greaterEqual => ">="
  | .less => "<"
  | .lessEqual => "<="

end TableScript
