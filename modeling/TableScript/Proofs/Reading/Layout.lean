import TableScript.Proofs.Parsing.Tracking
import TableScript.Proofs.Reading.Equation
import TableScript.Proofs.Scanning.Layout

/-!
# Layout does not matter

Blanks, line breaks and closed comments may be put between any two segments of a script.  The tokens
stay the same, on lines that are raised behind the place (`Token.scan_insert`), and so what is read
stays the same, program or error, up to the lines of the text itself (`layout_irrelevant`).

Reading depends on lines in one way only: it copies them into trees and errors.  So the lines of the
tokens may be changed before parsing or after it (`read_of_mapLine_eq`).  The text of an import is read
by itself, and only its failure to be found is an error of the text that asks for it
(`natural_setting`).
-/

namespace TableScript

namespace Cursor

/-- A list of tokens on other lines, which has a token. -/
theorem ofList_map {ts : List Located} (hts : ts ≠ []) (f : Nat → Nat) :
    ofList (ts.map (Located.mapLine f)) = (ofList ts).mapLines f := by
  obtain ⟨t, ts, rfl⟩ := List.exists_cons_of_ne_nil hts
  have hlast : (ts.map (Located.mapLine f)).getLastD (t.mapLine f) =
      (ts.getLastD t).mapLine f := by
    rw [List.getLastD_eq_getLast?, List.getLastD_eq_getLast?, List.getLast?_map]
    rcases ts.getLast? with - | u
    · rfl
    · rfl
  have hclosing (u : Located) : closing (u.mapLine f) = (closing u).map (Located.mapLine f) := by
    unfold closing
    show (if u.token.isEnd = true then _ else _) = _
    split
    · rfl
    · rfl
  rw [List.map_cons, ofList, ofList, mapLines, hlast, hclosing, List.map_append]

theorem tokens_mapLines (f : Nat → Nat) (c : Cursor) :
    (c.mapLines f).tokens = c.tokens.map (Located.mapLine f) := rfl

end Cursor

namespace Program

/-- What a reader gives, with other lines. -/
def mapLinesRead (f : Nat → Nat) : Except Error Program → Except Error Program :=
  mapResult f (Program.mapLines f)

/-- The line of an import is in its own errors only. -/
theorem natural_setting (load : Loader) (limits : Limits) (stack : List String) (f : Nat → Nat) :
    (setting load limits stack).Natural f := by
  intro line file
  show fetchWith load (read load limits) stack (f line) file =
    (fetchWith load (read load limits) stack line file).mapError (Error.mapLine f)
  unfold fetchWith
  split
  · rfl
  · split
    · rfl
    · rfl
    · next text _ =>
      -- an error of the file itself is about the lines of that file
      rcases read load limits (stack ++ [file]) text with e | program
      · exact congrArg Except.error (e.mapLine_inFile f file).symm
      · rfl

/-- What is read depends on the lines of the tokens as far as they are told apart. -/
theorem read_of_mapLine_eq {load : Loader} {limits : Limits} {stack : List String}
    {source source' : String} {f : Nat → Nat} {ts ts' : List Located}
    (hts : Token.scan limits.lexeme source = .ok ts)
    (hts' : Token.scan limits.lexeme source' = .ok ts')
    (h : ts.map (Located.mapLine f) = ts'.map (Located.mapLine f)) :
    mapLinesRead f (read load limits stack source) =
      mapLinesRead f (read load limits stack source') := by
  have hparse {source ts} (hts : Token.scan limits.lexeme source = .ok ts) :
      mapLinesRead f (read load limits stack source) =
        (Parser.program (setting load limits stack)
          (Cursor.ofList (ts.map (Located.mapLine f)))).1 := by
    rw [Cursor.ofList_map (Token.scanFrom_ne_nil hts),
      Parser.program_mapLines (natural_setting load limits stack f), read_eq, hts, mapLinesRead]
  rw [hparse hts, hparse hts', h]

/-- What is read, without the lines of the text itself. -/
def eraseLines : Except Error Program → Except Error Program := mapLinesRead fun _ => 0

/-- Raising lines after scanning changes nothing else in what is read. -/
theorem eraseLines_read_of_raiseFrom {load : Loader} {limits : Limits} {stack : List String}
    {source source' : String} {n k : Nat}
    (h : Token.scan limits.lexeme source' =
      Token.raiseFrom n k (Token.scan limits.lexeme source)) :
    eraseLines (read load limits stack source') = eraseLines (read load limits stack source) := by
  rcases hscan : Token.scan limits.lexeme source with e | ts
  · rw [hscan] at h
    rw [read_eq, h, read_eq, hscan]
    exact congrArg Except.error (e.mapLine_mapLine _ _)
  · rw [hscan] at h
    refine read_of_mapLine_eq h hscan ?_
    have hsame : (Located.mapLine fun _ => 0) ∘ Located.mapLine (· + k) =
        Located.mapLine fun _ => 0 := rfl
    rw [List.map_append, List.map_map, hsame, ← List.map_append, List.take_append_drop]

/-- **Layout does not matter.**  Put blanks, line breaks and closed comments between two segments of a
script.  Then the tokens are the same, with the lines of those behind the place raised by the number of
new line breaks, or the same error is found, on a line that is raised if it is behind the place.  And
what is read is the same, program or error, up to the lines of the script itself. -/
theorem layout_irrelevant (u w v : String) (h : Segment.Boundary u.toList v.toList)
    (hw : Token.Layout w.toList) (load : Loader) (limits : Limits) (origin : Option String) :
    (match Token.scan limits.lexeme u with
      | .ok front => Token.scan limits.lexeme (u ++ w ++ v) =
          Token.raiseFrom (front.length - 1) (w.toList.count '\n')
            (Token.scan limits.lexeme (u ++ v))
      | .error e => Token.scan limits.lexeme (u ++ w ++ v) = .error e ∧
          Token.scan limits.lexeme (u ++ v) = .error e) ∧
      eraseLines (ofSource load limits origin (u ++ w ++ v)) =
        eraseLines (ofSource load limits origin (u ++ v)) := by
  have hscan := Token.scan_insert h hw limits.lexeme
  refine ⟨hscan, ?_⟩
  show eraseLines (read load limits origin.toList _) = eraseLines (read load limits origin.toList _)
  rcases hfront : Token.scan limits.lexeme u with e | front
  · rw [hfront] at hscan
    rw [read_eq, hscan.1, read_eq, hscan.2]
  · rw [hfront] at hscan
    exact eraseLines_read_of_raiseFrom hscan

/-- A script that is cut inside of a condition, before the second comparison sign. -/
def cutFront : String := "x = y;\nIf (x"

/-- What stands behind the cut.  There is no semicolon in the block. -/
def cutBack : String := "== y) \x7by = \"a\"\x7d;"

/-- A comment that holds a quote, and two line breaks. -/
def cutLayout : String := " #\"#\n\t\n"

/-- The missing semicolon is found on the second line, and on the fourth if layout is put in. -/
theorem layout_irrelevant_insideCondition :
    (Segment.Boundary cutFront.toList cutBack.toList ∧ Token.Layout cutLayout.toList) ∧
    ofSource (Loader.ofList []) {} none (cutFront ++ cutBack) =
      .error (.grammar 2 (.expected (.mark .semicolon) (.symbol .rightBrace))) ∧
    Token.scan 21 (cutFront ++ cutLayout ++ cutBack) =
      Token.raiseFrom 7 2 (Token.scan 21 (cutFront ++ cutBack)) ∧
    eraseLines (ofSource (Loader.ofList []) {} none (cutFront ++ cutLayout ++ cutBack)) =
      .error (.grammar 0 (.expected (.mark .semicolon) (.symbol .rightBrace))) := by
  have hlayout : Token.Layout cutLayout.toList := by
    have hchars : cutLayout.toList = ' ' :: '#' :: (['\"'] ++ '#' :: ['\n', '\t', '\n']) := by decide
    rw [hchars]
    exact .blank rfl (.comment (List.forall_mem_singleton.2 rfl)
      (.newline (.blank rfl (.newline .nil))))
  obtain ⟨front, hfront, hlength⟩ : ∃ front, Token.scan 21 cutFront = .ok front ∧ front.length = 8 :=
    ⟨_, by with_unfolding_all rfl, rfl⟩
  have hboundary : Segment.Boundary cutFront.toList cutBack.toList :=
    Token.boundary_of_scan hfront (by decide +kernel)
  have hfails : ofSource (Loader.ofList []) {} none (cutFront ++ cutBack) =
      .error (.grammar 2 (.expected (.mark .semicolon) (.symbol .rightBrace))) := by with_unfolding_all rfl
  obtain ⟨hscan, hread⟩ :=
    layout_irrelevant cutFront cutLayout cutBack hboundary hlayout (Loader.ofList []) {} none
  rw [hfront] at hscan
  simp only [hlength] at hscan
  rw [hfails] at hread
  exact ⟨⟨hboundary, hlayout⟩, hfails, hscan, hread⟩

/-- A string that is not closed is no place for layout: a comment that is put behind it can close it. -/
example : Token.scan 21 "\"a\n" = .error (.lexical 1 .unclosedText) ∧
    Token.scan 21 "\"a#\"#\n" = .error (.lexical 1 (.invalidCharacter '#')) :=
  ⟨by with_unfolding_all rfl, by with_unfolding_all rfl⟩

end Program

end TableScript
