import TableScript.Proofs.Reading.Resolution

/-!
# Limits are no part of the language

Two of the limits hold for reading: how long a token may be, and how deep a text may be nested.  They
decide whether a text is read to its end, and nothing else.  A text that is not refused for one of them
is read to the same program, or refused with the same error, under any larger limits
(`ofSource_of_le`).

The proof goes through the three parts of reading.  Scanning meets its segments one by one, so the first
fault stays first unless it is a token that is too long (`scan_of_le`).  Parsing is the walk over the
grammar of `Parametric`, with more levels in the second setting and with imports that follow one another
(`program_of_le`).  Imports are by induction on the names that are left under the smaller limits, since the
names that a text asks for fit into its tokens.
-/

namespace TableScript

/-- An error that says which of the limits was exceeded, from whatever file. -/
inductive Error.Exceeds (limits : Limits) : Error → Prop
  | token {line : Nat} {lexeme : String} {files : List String} : limits.lexeme < lexeme.length →
      Exceeds limits ⟨.lexical line (.tokenTooLong lexeme limits.lexeme), files⟩
  | nesting {line : Nat} {files : List String} :
      Exceeds limits ⟨.grammar line (.nestingTooDeep limits.nesting), files⟩

theorem Error.Exceeds.inFile {limits : Limits} {e : Error} (h : e.Exceeds limits) (file : String) :
    (e.inFile file).Exceeds limits := by
  cases h with
  | token hlong => exact .token hlong
  | nesting => exact .nesting

variable {small large : Limits}

/-! ### Scanning -/

/-- The length of a segment is looked at last, and only against the limit. -/
theorem Segment.limited_of_le {limit limit' : Nat} (hle : limit ≤ limit') (chars : List Char)
    (token : Token) :
    limited limit' chars token = limited limit chars token ∨
      (limited limit chars token = .error (.tokenTooLong (String.ofList chars) limit) ∧
        limit < chars.length) := by
  unfold limited
  by_cases hlong : limit < chars.length
  · exact .inr ⟨if_pos hlong, hlong⟩
  · rw [if_neg hlong, if_neg (by omega)]
    exact .inl rfl

theorem Segment.token?_of_le {limit limit' : Nat} (hle : limit ≤ limit') (seg : Segment) :
    seg.token? limit' = seg.token? limit ∨
      (seg.token? limit = .error (.tokenTooLong (String.ofList seg.chars) limit) ∧
        limit < seg.chars.length) := by
  obtain ⟨kind, chars⟩ := seg
  cases kind with
  | number =>
    simp only [token?]
    rcases Number.ofLexeme? chars with - | x
    · exact .inl rfl
    · exact limited_of_le hle chars (.number x)
  | word => exact limited_of_le hle chars _
  | text =>
    simp only [token?]
    rcases unquote? chars with - | cs
    · exact .inl rfl
    · exact limited_of_le hle chars _
  | symbol mark => exact limited_of_le hle chars (.symbol mark)
  | comment | newline | blank => exact .inl rfl

theorem Token.ofSegments_of_le (hle : small.lexeme ≤ large.lexeme) (line : Nat)
    (segs : List Segment) (tail : List Char) :
    SameUnless (Error.Exceeds small) (ofSegments small.lexeme line segs tail)
      (ofSegments large.lexeme line segs tail) := by
  induction segs generalizing line with
  | nil => cases tail <;> exact .refl _
  | cons seg segs ih =>
    rcases seg.token?_of_le hle with hsame | ⟨htoken, hlong⟩
    · rcases htoken : seg.token? small.lexeme with e | t
      · rw [ofSegments, ofSegments, hsame, htoken]
        exact .refl _
      · rw [ofSegments_of_sound htoken, ofSegments_of_sound (hsame.trans htoken)]
        exact (ih _).map _
    · have hfails : ofSegments small.lexeme line (seg :: segs) tail =
          .error (.lexical line (.tokenTooLong (String.ofList seg.chars) small.lexeme)) := by
        rw [ofSegments, htoken]
      exact .inr ⟨_, hfails, .token (by rwa [String.length_ofList])⟩

theorem Token.scan_of_le (hle : small.lexeme ≤ large.lexeme) (source : String) :
    SameUnless (Error.Exceeds small) (scan small.lexeme source) (scan large.lexeme source) :=
  ofSegments_of_le hle 1 _ _

/-! ### Imports -/

namespace Program

variable {load : Loader} {stack : List String}

/-- An import is followed if the text of its file is, read with the file on the stack. -/
theorem fetch_of_le {file : String}
    (hread : file ∉ stack → ∀ text, SameUnless (Error.Exceeds small)
      (read load small (stack ++ [file]) text) (read load large (stack ++ [file]) text))
    (line : Nat) :
    SameUnless (Error.Exceeds small) (fetch load small stack line file)
      (fetch load large stack line file) := by
  unfold fetch fetchWith
  split
  · exact .refl _
  · next hmem =>
    rcases load file with (_ | details) | text
    · exact .refl _
    · exact .refl _
    · exact (hread (by simpa using hmem) text).mapError fun e he => he.inFile file

theorem read_of_le (hlexeme : small.lexeme ≤ large.lexeme) (hnesting : small.nesting ≤ large.nesting)
    (stack : List String) (source : String) :
    SameUnless (Error.Exceeds small) (read load small stack source) (read load large stack source) := by
  induction stack, source using stack_induction small with
  | step stack source ih =>
    rw [read_eq, read_eq]
    rcases Token.scan_of_le hlexeme source with hsame | ⟨e, hscan, he⟩
    · rw [hsame]
      rcases hscan : Token.scan small.lexeme source with e | tokens
      · exact .refl _
      · refine Parser.program_of_le (setting load small stack) (setting load large stack) hnesting rfl
          (fun _ => .nesting) fun file hfile line => fetch_of_le (fun hmem text => ?_) line
        rw [tokens_of_scan hscan] at hfile
        exact ih file text hmem (length_le_of_mem_targets hscan hfile)
    · rw [hscan]
      exact .inr ⟨e, rfl, he⟩

/-- **Limits on reading are no part of the language.**  A text is refused because it exceeds the smaller
limits, with an error that says so, or the larger limits give the same: the same program, or the same
error from the same files. -/
theorem ofSource_of_le (load : Loader) (origin : Option String) (source : String)
    (small large : Limits) (hlexeme : small.lexeme ≤ large.lexeme)
    (hnesting : small.nesting ≤ large.nesting) :
    (∃ e, ofSource load small origin source = .error e ∧ e.Exceeds small) ∨
      ofSource load large origin source = ofSource load small origin source :=
  (read_of_le hlexeme hnesting origin.toList source).symm

/-- A file that is nested three deep, and one with an error. -/
def nestedFiles : Loader := .ofList [("deep", .ok "x = ((y));"), ("bad", .ok "x = ;\n((y));")]

/-- With two levels of nesting, the error in one file comes up as it does with all levels, and the other
file is refused. -/
theorem ofSource_of_le_nestedFiles :
    (ofSource nestedFiles { lexeme := 6, nesting := 2 } none "Get \"deep\";" =
        .error ⟨.grammar 1 (.nestingTooDeep 2), ["deep"]⟩ ∧
      ofSource nestedFiles {} none "Get \"deep\";" =
        .ok [.get 1 "deep" [.assign 1 .define (.var 1 "x") (.var 1 "y")]]) ∧
    ofSource nestedFiles { lexeme := 6, nesting := 2 } none "Get \"bad\";" =
        .error ⟨.grammar 1 (.unexpectedToken (.symbol .semicolon)), ["bad"]⟩ ∧
      ofSource nestedFiles {} none "Get \"bad\";" =
        .error ⟨.grammar 1 (.unexpectedToken (.symbol .semicolon)), ["bad"]⟩ := by
  refine ⟨⟨by with_unfolding_all rfl, by with_unfolding_all rfl⟩, ?_⟩
  have hbad : ofSource nestedFiles { lexeme := 6, nesting := 2 } none "Get \"bad\";" =
      .error ⟨.grammar 1 (.unexpectedToken (.symbol .semicolon)), ["bad"]⟩ := by with_unfolding_all rfl
  refine ⟨hbad, ?_⟩
  rcases ofSource_of_le nestedFiles none "Get \"bad\";" { lexeme := 6, nesting := 2 } {}
    (by decide) (by decide) with ⟨e, he, hexceeds⟩ | hsame
  · cases hbad.symm.trans he
    cases hexceeds
  · exact hsame.trans hbad

end Program

end TableScript
