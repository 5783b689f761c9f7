import TableScript.Token

/-!
# Cursors

A cursor stands on a token of a list that ends with the mark for the end of the input. It moves
forward one token at a time and stops at the first such mark, so there is always a current token.
-/

namespace TableScript

/-- A place in a list of tokens. -/
structure Cursor where
  /-- The token under the cursor. -/
  here : Located
  /-- The tokens behind it. -/
  later : List Located
deriving Repr

namespace Cursor

/-- What has to be added after a list whose last token is `last` for it to be closed. -/
def closing (last : Located) : List Located :=
  if last.token.isEnd then [] else [⟨.endOfInput, last.line⟩]

/-- A cursor on the first token of a list, which is closed first if need be. -/
def ofList : List Located → Cursor
  | [] => ⟨⟨.endOfInput, 1⟩, []⟩
  | t :: ts => ⟨t, ts ++ closing (ts.getLastD t)⟩

/-- The token under the cursor. -/
def current (c : Cursor) : Token := c.here.token

/-- The line of the token under the cursor. -/
def line (c : Cursor) : Nat := c.here.line

/-- The token behind the current one, or the current one if it is the last. -/
def peekNext (c : Cursor) : Token := (c.later.headD c.here).token

/-- Whether the cursor stands at the end of the input. -/
def atEnd (c : Cursor) : Bool := c.current.isEnd

/-- How many tokens stand behind the current one. -/
def remaining (c : Cursor) : Nat := c.later.length

/-- The current token, and the cursor behind it. At the end of the input the cursor stays. -/
def advance (c : Cursor) : Located × Cursor :=
  if c.atEnd then (c.here, c)
  else match c.later with
    | [] => (c.here, c)
    | t :: ts => (c.here, ⟨t, ts⟩)

/-- Moves on if the current token equals `t`, and says whether it did. -/
def eat (t : Token) (c : Cursor) : Bool × Cursor :=
  if c.current == t then (true, c.advance.2) else (false, c)

end Cursor

end TableScript
