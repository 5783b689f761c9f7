/-!
# Limits

How large a script may be in the three ways that are bounded: the length of a token, the depth of
nesting in the text, and the depth of calls at run time.
-/

namespace TableScript

/-- The bounds that a script is held to. -/
structure Limits where
  /-- Most characters in one token. -/
  lexeme : Nat := 21
  /-- Most function calls active at one time. -/
  callDepth : Nat := 64
  /-- Most expressions and blocks inside one another. -/
  nesting : Nat := 100
deriving Repr, DecidableEq, Inhabited

end TableScript
