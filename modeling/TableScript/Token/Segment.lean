import TableScript.Token

/-!
# Segments

A script is cut from left to right into segments. At each place the segment is the longest text
that some pattern matches: a number, a word, a string, a closed comment, a symbol, a line break or
a run of blanks. `Segment.next` takes one segment off, `Segment.split` all of them. What is left
when no pattern matches is the tail.

The patterns start with different characters, so the first character decides the pattern, and a
word that spells a keyword is still one segment.
-/

namespace TableScript

/-- Which pattern a segment matches. -/
inductive SegmentKind where
  /-- A digit, then digits and points. -/
  | number
  /-- A letter or underscore, then letters, digits and underscores. -/
  | word
  /-- A quote, then anything on the same line up to the next quote, if there is one. -/
  | text
  /-- A hash sign, then anything on the same line up to the next hash sign. -/
  | comment
  | symbol (mark : Symbol)
  | newline
  /-- Spaces, tabs, carriage returns and form feeds. -/
  | blank
deriving Repr, DecidableEq

/-- A piece of a script that one pattern matches. -/
structure Segment where
  kind : SegmentKind
  chars : List Char
deriving Repr, DecidableEq

namespace Segment

/-! ### Classes of characters -/

/-- Characters that may follow the first digit of a number. -/
def isNumberChar (c : Char) : Bool := c.isDigit || c == '.'

/-- Characters that a word may start with. -/
def isWordStart (c : Char) : Bool := c.isAlpha || c == '_'

/-- Characters that a word may go on with. -/
def isWordChar (c : Char) : Bool := c.isAlphanum || c == '_'

/-- Characters that a string may hold. -/
def isTextChar (c : Char) : Bool := c != '\"' && c != '\n'

/-- Characters that a comment may hold. -/
def isCommentChar (c : Char) : Bool := c != '#' && c != '\n'

/-- Blanks other than the line break. -/
def isBlank (c : Char) : Bool := c == ' ' || c == '\t' || c == '\r' || c == '\x0c'

/-! ### Taking a segment off -/

/-- The symbol at the start of a text, two characters before one. -/
def symbol? : List Char → Option (Symbol × List Char × List Char)
  | '=' :: '=' :: cs => some (.equal, ['=', '='], cs)
  | '!' :: '=' :: cs => some (.notEqual, ['!', '='], cs)
  | '>' :: '=' :: cs => some (.greaterEqual, ['>', '='], cs)
  | '<' :: '=' :: cs => some (.lessEqual, ['<', '='], cs)
  | '=' :: '&' :: cs => some (.refAssign, ['=', '&'], cs)
  | '>' :: cs => some (.greater, ['>'], cs)
  | '<' :: cs => some (.less, ['<'], cs)
  | '=' :: cs => some (.assign, ['='], cs)
  | '+' :: cs => some (.plus, ['+'], cs)
  | '-' :: cs => some (.minus, ['-'], cs)
  | '*' :: cs => some (.star, ['*'], cs)
  | '/' :: cs => some (.slash, ['/'], cs)
  | '(' :: cs => some (.leftParen, ['('], cs)
  | ')' :: cs => some (.rightParen, [')'], cs)
  | '\x7b' :: cs => some (.leftBrace, ['\x7b'], cs)
  | '\x7d' :: cs => some (.rightBrace, ['\x7d'], cs)
  | '[' :: cs => some (.leftBracket, ['['], cs)
  | ']' :: cs => some (.rightBracket, [']'], cs)
  | ';' :: cs => some (.semicolon, [';'], cs)
  | ':' :: cs => some (.colon, [':'], cs)
  | ',' :: cs => some (.comma, [','], cs)
  | _ => none

/-- A segment that starts with `c` and goes on as long as the characters of `cs` are of a class. -/
def run (kind : SegmentKind) (goesOn : Char → Bool) (c : Char) (cs : List Char) :
    Segment × List Char :=
  (⟨kind, c :: cs.takeWhile goesOn⟩, cs.dropWhile goesOn)

/-- The string whose opening quote was just read. -/
def string (cs : List Char) : Segment × List Char :=
  match cs.dropWhile isTextChar with
  | '\"' :: rest => (⟨.text, '\"' :: cs.takeWhile isTextChar ++ ['\"']⟩, rest)
  | rest => (⟨.text, '\"' :: cs.takeWhile isTextChar⟩, rest)

/-- The comment whose opening hash sign was just read, if it is closed. -/
def comment? (cs : List Char) : Option (Segment × List Char) :=
  match cs.dropWhile isCommentChar with
  | '#' :: rest => some (⟨.comment, '#' :: cs.takeWhile isCommentChar ++ ['#']⟩, rest)
  | _ => none

/-- The longest segment at the start of a text, and the rest of the text. -/
def next : List Char → Option (Segment × List Char)
  | [] => none
  | c :: cs =>
    if c.isDigit then some (run .number isNumberChar c cs)
    else if isWordStart c then some (run .word isWordChar c cs)
    else if isBlank c then some (run .blank isBlank c cs)
    else if c = '\n' then some (⟨.newline, ['\n']⟩, cs)
    else if c = '\"' then some (string cs)
    else if c = '#' then comment? cs
    else (symbol? (c :: cs)).map fun (mark, taken, rest) => (⟨.symbol mark, taken⟩, rest)

/-! ### Nothing is lost, and something is taken -/

theorem symbol?_append {cs taken rest : List Char} {mark : Symbol}
    (h : symbol? cs = some (mark, taken, rest)) : taken ++ rest = cs ∧ taken ≠ [] := by
  unfold symbol? at h
  split at h <;> cases h <;> simp

theorem run_append (kind : SegmentKind) (goesOn : Char → Bool) (c : Char) (cs : List Char) :
    (run kind goesOn c cs).1.chars ++ (run kind goesOn c cs).2 = c :: cs := by
  simp [run]

theorem string_append (cs : List Char) :
    (string cs).1.chars ++ (string cs).2 = '\"' :: cs := by
  have split_cs := List.takeWhile_append_dropWhile (p := isTextChar) (l := cs)
  unfold string
  split
  · next rest h => rw [h] at split_cs; simp [split_cs]
  · next rest h => simp [split_cs]

theorem string_chars_ne_nil (cs : List Char) : (string cs).1.chars ≠ [] := by
  unfold string
  split <;> simp

theorem comment?_append {cs rest : List Char} {seg : Segment}
    (h : comment? cs = some (seg, rest)) : seg.chars ++ rest = '#' :: cs ∧ seg.chars ≠ [] := by
  have split_cs := List.takeWhile_append_dropWhile (p := isCommentChar) (l := cs)
  unfold comment? at h
  split at h
  · next tail ht =>
    cases h
    rw [ht] at split_cs
    simp [split_cs]
  · cases h

/-- A segment and the rest make up the text, and the segment is not empty. -/
theorem next_append {cs rest : List Char} {seg : Segment} (h : next cs = some (seg, rest)) :
    seg.chars ++ rest = cs ∧ seg.chars ≠ [] := by
  cases cs with
  | nil => simp [next] at h
  | cons c cs =>
    simp only [next] at h
    split at h
    · cases h; exact ⟨run_append _ _ _ _, by simp⟩
    split at h
    · cases h; exact ⟨run_append _ _ _ _, by simp⟩
    split at h
    · cases h; exact ⟨run_append _ _ _ _, by simp⟩
    split at h
    · next hc => cases h; simp [hc]
    split at h
    · next hc =>
      have hs : string cs = (seg, rest) := Option.some.inj h
      have happ := string_append cs
      have hne := string_chars_ne_nil cs
      rw [hs] at happ hne
      exact ⟨hc ▸ happ, hne⟩
    split at h
    · next hc => exact hc ▸ comment?_append h
    · obtain ⟨⟨mark, taken, rest'⟩, hs, he⟩ := Option.map_eq_some_iff.1 h
      cases he
      exact symbol?_append hs

theorem next_length {cs rest : List Char} {seg : Segment} (h : next cs = some (seg, rest)) :
    rest.length < cs.length := by
  obtain ⟨happ, hne⟩ := next_append h
  have hpos : 0 < seg.chars.length := List.length_pos_iff.2 hne
  rw [← happ, List.length_append]
  omega

/-! ### The whole script -/

/-- Cuts a text into segments. The second part is the tail, where no pattern matches; it is empty
if the whole text was cut up. -/
def split (cs : List Char) : List Segment × List Char :=
  match _h : next cs with
  | none => ([], cs)
  | some (seg, rest) =>
    let (segs, tail) := split rest
    (seg :: segs, tail)
termination_by cs.length
decreasing_by exact next_length _h

end Segment

end TableScript
