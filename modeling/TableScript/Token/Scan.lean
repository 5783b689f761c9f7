import TableScript.Token.Segment
import TableScript.Error

/-!
# Scanning

A script becomes a list of tokens, each with its line, closed by the mark for the end of the input.
The segments are read in order; comments and blanks give no token. A segment that is no token, or a
token longer than the limit, ends the scan with an error. So does a tail that no pattern matches, if
the segments before it are sound.
-/

namespace TableScript

namespace Segment

/-- A token whose text is held to the limit. -/
def limited (limit : Nat) (chars : List Char) (token : Token) :
    Except LexicalError (Option Token) :=
  if limit < chars.length then .error (.tokenTooLong (String.ofList chars) limit)
  else .ok (some token)

/-- The text between the quotes of a string, if it is closed. -/
def unquote? : List Char → Option (List Char)
  | _ :: cs => if cs.getLast? = some '\"' then some cs.dropLast else none
  | [] => none

/-- The token that a segment stands for, or none for comments, line breaks and blanks. A malformed
segment is refused as such even if it is too long. -/
def token? (limit : Nat) (seg : Segment) : Except LexicalError (Option Token) :=
  match seg.kind with
  | .number =>
    match Number.ofLexeme? seg.chars with
    | some x => limited limit seg.chars (.number x)
    | none => .error (.malformedNumber (String.ofList seg.chars))
  | .word => limited limit seg.chars (.ofWord (String.ofList seg.chars))
  | .text =>
    match unquote? seg.chars with
    | some cs => limited limit seg.chars (.text (String.ofList cs))
    | none => .error .unclosedText
  | .symbol mark => limited limit seg.chars (.symbol mark)
  | .comment | .newline | .blank => .ok none

/-- The line after a segment that starts on `line`. Only a line break leads to a new one. -/
def lineAfter (seg : Segment) (line : Nat) : Nat :=
  match seg.kind with
  | .newline => line + 1
  | _ => line

end Segment

namespace Token

/-- The tokens of segments that start on `line`, followed by the end of the input, or by an error
if there is a tail. -/
def ofSegments (limit : Nat) : Nat → List Segment → List Char → Except Error (List Located)
  | line, [], [] => .ok [⟨.endOfInput, line⟩]
  | line, [], c :: _ => .error (.lexical line (.invalidCharacter c))
  | line, seg :: segs, tail =>
    match seg.token? limit with
    | .error e => .error (.lexical line e)
    | .ok none => ofSegments limit (seg.lineAfter line) segs tail
    | .ok (some token) =>
      match ofSegments limit (seg.lineAfter line) segs tail with
      | .error e => .error e
      | .ok tokens => .ok (⟨token, line⟩ :: tokens)

/-- The tokens of a script, none longer than `limit` characters. -/
def scan (limit : Nat) (source : String) : Except Error (List Located) :=
  let (segs, tail) := Segment.split source.toList
  ofSegments limit 1 segs tail

end Token

end TableScript
