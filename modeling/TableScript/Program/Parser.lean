import TableScript.Action
import TableScript.Error
import TableScript.Token.Cursor
import TableScript.Program

/-!
# Parsers

A parser is an action that may fail with an error; the tokens that it consumed stay consumed. Its
state holds a cursor, and the steps that the grammar is made of use nothing else of it: looking at the
current token, taking it, demanding a mark, repetition and comma lists. So the grammar is written
once for all such states. The parser that runs has the cursor and nothing else.

Repetition goes on only while tokens are consumed, which is what makes every parser end. The
grammar consumes a token in each turn of each repetition, so it never stops for that reason.
-/

namespace TableScript

/-- A state that holds a cursor. -/
class HasCursor (σ : Type) where
  cursor : σ → Cursor
  withCursor : σ → Cursor → σ
  withCursor_cursor : ∀ s, withCursor s (cursor s) = s

instance : HasCursor Cursor := ⟨fun c => c, fun _ c => c, fun _ => rfl⟩

/-- A parser for an `α` with states `σ`. -/
abbrev ParserOn (σ : Type) := Action σ Error

/-- A parser for an `α`. -/
abbrev Parser := ParserOn Cursor

namespace Parser

open HasCursor

variable {σ : Type} [HasCursor σ] {α β : Type}

/-- The current token. -/
def current : ParserOn σ Token := Action.read fun s => (cursor s).current

/-- The line of the current token. -/
def line : ParserOn σ Nat := Action.read fun s => (cursor s).line

/-- Whether the input is used up. -/
def atEnd : ParserOn σ Bool := Action.read fun s => (cursor s).atEnd

/-- A step of the cursor. -/
def update (f : Cursor → α × Cursor) : ParserOn σ α := Action.update fun s =>
  match f (cursor s) with
  | (a, c) => (a, withCursor s c)

/-- Takes the current token. -/
def advance : ParserOn σ Located := update Cursor.advance

/-- Takes the current token if it is the mark `m`, and says whether it was. -/
def eat (m : Symbol) : ParserOn σ Bool := update (Cursor.eat (.symbol m))

/-- Takes the current token if it is the word `w`, and says whether it was. -/
def eatWord (w : Keyword) : ParserOn σ Bool := update (Cursor.eat (.keyword w))

/-- Fails on the given line. -/
def failAt (line : Nat) (e : GrammarError) : ParserOn σ α := Action.fail (.grammar line e)

/-- Fails at the current token. -/
def failHere (e : Token → GrammarError) : ParserOn σ α := fun s =>
  (.error (.grammar (cursor s).line (e (cursor s).current)), s)

/-- Takes the mark `m`, or fails because it was expected. -/
def expect (m : Symbol) : ParserOn σ Unit := do
  if ← eat m then pure () else failHere (.expected (.mark m))

/-- Takes a name. -/
def name : ParserOn σ String := do
  match ← current with
  | .name s => do
    let _ ← advance
    pure s
  | _ => failHere (.expected .name)

/-! ### Repetition -/

/-- What one turn of a repetition leads to: another turn, or the end with a result. -/
inductive Turn (α β : Type) where
  | again (a : α)
  | finish (b : β)

/-- Repeats `turn` until it finishes. A turn that asks for another one without having consumed a
token is refused. -/
def iterate (turn : α → ParserOn σ (Turn α β)) (a : α) (s : σ) : Except Error β × σ :=
  match turn a s with
  | (.error e, s') => (.error e, s')
  | (.ok (.finish b), s') => (.ok b, s')
  | (.ok (.again a'), s') =>
    if (cursor s').remaining < (cursor s).remaining then iterate turn a' s'
    else failHere .unexpectedToken s'
termination_by (cursor s).remaining

/-- A list of items up to the mark `closing`, with commas between them. A comma right before
`closing` is refused. -/
def commaList (item : ParserOn σ α) (closing : Symbol) : ParserOn σ (List α) := do
  if ← eat closing then pure []
  else iterate (turn item closing) []
where
  /-- One more item after those in `items`, which are in reverse. -/
  turn (item : ParserOn σ α) (closing : Symbol) (items : List α) :
      ParserOn σ (Turn (List α) (List α)) := do
    let a ← item
    if ← eat .comma then
      if (← current) == .symbol closing then failHere fun _ => .trailingComma
      else pure (.again (a :: items))
    else if ← eat closing then pure (.finish (a :: items).reverse)
    else failHere (.expected (.commaOr closing))

end Parser

end TableScript
