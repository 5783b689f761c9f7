import TableScript.Proofs.Reading.Layout
import TableScript.Proofs.Reading.Provenance

/-!
# Errors of reading and the files that they name

When a text cannot be read, the error lists the files that lead to the text that is wrong
(`ofSource_error_path`).  The text itself imports the first of them, each of them imports the next,
and the last is the file whose text cannot be read, with all of these files around it.  What is wrong
is wrong with that text alone: reading it fails with the same cause, no files listed, on a line of that
text.

The scanner counts the line of its errors (`FirstFault.line_le`).  The parser only copies the lines of
its tokens: if the lines that no token is on were other lines, nothing would change
(`program_mapLines`), so an error is on the line of a token.
-/

namespace TableScript

/-- The word `Get` and the name of a file stand in the text, one after the other. -/
def Program.Gets (limits : Limits) (source file : String) : Prop :=
  ∃ before after line line', Token.scan limits.lexeme source =
    .ok (before ++ ⟨.keyword .getWord, line⟩ :: ⟨.text file, line'⟩ :: after)

/-- Files that lead from a text to another: the first text imports the first file, the text of each
file imports the next one, and the last one has the other text. -/
inductive Program.Leads (load : Loader) (limits : Limits) : String → List String → String → Prop
  | here {source} : Leads load limits source [] source
  | get {source file text files last} : Gets limits source file → load file = .ok text →
      Leads load limits text files last → Leads load limits source (file :: files) last

/-! ### Tokens behind `Get` -/

namespace Program

theorem exists_get_of_mem_targets {ts : List Located} {file : String} (h : file ∈ targets ts) :
    ∃ before after line line',
      ts = before ++ ⟨.keyword .getWord, line⟩ :: ⟨.text file, line'⟩ :: after := by
  fun_induction targets ts with
  | case1 line name line' rest ih =>
    rcases List.mem_cons.1 h with rfl | h
    · exact ⟨[], rest, line, line', rfl⟩
    · obtain ⟨before, after, l, l', heq⟩ := ih h
      exact ⟨_ :: before, after, l, l', by rw [heq, List.cons_append]⟩
  | case2 t rest _ ih =>
    obtain ⟨before, after, l, l', rfl⟩ := ih h
    exact ⟨t :: before, after, l, l', rfl⟩
  | case3 => cases h

theorem gets_of_mem_imports {limits : Limits} {source file : String}
    (h : file ∈ imports limits source) : Gets limits source file := by
  unfold imports at h
  rcases hscan : Token.scan limits.lexeme source with e | tokens
  · rw [hscan] at h
    cases h
  · rw [hscan] at h
    obtain ⟨before, after, line, line', rfl⟩ := exists_get_of_mem_targets h
    exact ⟨before, after, line, line', hscan⟩

end Program

/-! ### Lines of errors -/

/-- The first fault of a text is on one of its lines. -/
theorem FirstFault.line_le {limit : Nat} {before tail : List Char} {pieces : List Piece} {e : Error}
    (h : FirstFault limit before pieces tail e) :
    ∃ line g, e = .lexical line g ∧ 1 ≤ line ∧
      line ≤ 1 + (before ++ (pieces.flatMap Piece.chars ++ tail)).count '\n' := by
  induction h with
  | tail =>
    refine ⟨_, _, rfl, Nat.le_add_right _ _, ?_⟩
    rw [List.count_append]
    omega
  | here _ =>
    refine ⟨_, _, rfl, Nat.le_add_right _ _, ?_⟩
    rw [List.count_append]
    omega
  | later _ _ ih =>
    obtain ⟨line, g, rfl, hpos, hle⟩ := ih
    refine ⟨line, g, rfl, hpos, ?_⟩
    rwa [List.flatMap_cons, List.append_assoc, ← List.append_assoc]

theorem Token.isLine_of_scan_error {limit : Nat} {source : String} {e : Error}
    (h : scan limit source = .error e) : ∃ line g, e = .lexical line g ∧ IsLine source line := by
  have hfault : FirstFault limit [] _ _ e := (ofSegments_eq_error_iff (wins_split _)).1 h
  obtain ⟨line, g, rfl, hline⟩ := hfault.line_le
  rw [List.nil_append, (Segment.cuts_split source.toList).append_eq] at hline
  exact ⟨line, g, rfl, hline⟩

/-- Moves the lines that no token is on. -/
def shiftOthers (tokens : List Located) (line : Nat) : Nat :=
  if line ∈ tokens.map Located.line then line else line + 1

theorem map_shiftOthers (tokens : List Located) :
    tokens.map (Located.mapLine (shiftOthers tokens)) = tokens := by
  conv_rhs => rw [← List.map_id tokens]
  apply List.map_congr_left
  intro t ht
  have hline : shiftOthers tokens t.line = t.line := if_pos (List.mem_map_of_mem ht)
  rw [Located.mapLine, hline, id]

theorem exists_token_of_shiftOthers {tokens : List Located} {line : Nat}
    (h : shiftOthers tokens line = line) : ∃ t ∈ tokens, t.line = line := by
  by_contra hnone
  have hmoved : shiftOthers tokens line = line + 1 := if_neg fun hmem => hnone (List.mem_map.1 hmem)
  omega

namespace Program

variable {load : Loader} {limits : Limits} {stack : List String} {source : String} {cause : Cause}

/-- Moving the lines that no token is on does not move the line of an error of the text itself. -/
theorem mapLine_shiftOthers_of_read {tokens : List Located}
    (hscan : Token.scan limits.lexeme source = .ok tokens)
    (h : read load limits stack source = .error ⟨cause, []⟩) :
    cause.mapLine (shiftOthers tokens) = cause := by
  let f := shiftOthers tokens
  have hmap : (Cursor.ofList tokens).mapLines f = Cursor.ofList tokens := by
    rw [← Cursor.ofList_map (Token.scanFrom_ne_nil hscan), map_shiftOthers]
  have hparse := Parser.program_mapLines (natural_setting load limits stack f) (Cursor.ofList tokens)
  have hfails : (Parser.program (setting load limits stack) (Cursor.ofList tokens)).1 =
      .error ⟨cause, []⟩ := by
    rwa [read_eq, hscan] at h
  rw [hmap, hfails] at hparse
  injection hparse with he
  injection he with hcause
  exact hcause.symm

/-- An error that lists no files is one of scanning or of parsing, or of an import that could not be
had. -/
theorem exists_line_of_read_error (h : read load limits stack source = .error ⟨cause, []⟩) :
    ∃ line, (∃ g, cause = .lexical line g) ∨ ∃ g, cause = .grammar line g := by
  rcases read_eq_error h with ⟨line, g, he⟩ | ⟨line, g, he, -⟩ | ⟨file, -, line, hfetch⟩
  · cases he
    exact ⟨line, .inl ⟨g, rfl⟩⟩
  · cases he
    exact ⟨line, .inr ⟨g, rfl⟩⟩
  · rcases fetch_eq_error hfetch with ⟨-, he⟩ | ⟨_, he⟩ | he | ⟨text, e', -, -, -, he⟩
    · cases he
      exact ⟨line, .inr ⟨_, rfl⟩⟩
    · cases he
      exact ⟨line, .inr ⟨_, rfl⟩⟩
    · cases he
      exact ⟨line, .inr ⟨_, rfl⟩⟩
    · cases he

/-- An error that lists no files is on a line of the text. -/
theorem isLine_of_read_error (h : read load limits stack source = .error ⟨cause, []⟩) :
    ∃ line, ((∃ g, cause = .lexical line g) ∨ ∃ g, cause = .grammar line g) ∧ IsLine source line := by
  rcases hscan : Token.scan limits.lexeme source with e | tokens
  · rw [read_eq, hscan] at h
    cases h
    obtain ⟨line, g, he, hline⟩ := Token.isLine_of_scan_error hscan
    cases he
    exact ⟨line, .inl ⟨g, rfl⟩, hline⟩
  · have hfixed := mapLine_shiftOthers_of_read hscan h
    obtain ⟨line, hcause⟩ := exists_line_of_read_error h
    have hline : shiftOthers tokens line = line := by
      rcases hcause with ⟨g, rfl⟩ | ⟨g, rfl⟩
      · injection hfixed
      · injection hfixed
    obtain ⟨t, ht, rfl⟩ := exists_token_of_shiftOthers hline
    exact ⟨t.line, hcause, Token.isLine_of_mem_scan hscan ht⟩

/-! ### Files that lead to an error -/

/-- The first file that an error lists is imported by the text, is not on the stack yet, and cannot be
read for what the rest of the error says. -/
theorem read_error_cons {file : String} {files : List String}
    (h : read load limits stack source = .error ⟨cause, file :: files⟩) :
    ∃ text, file ∈ imports limits source ∧ file ∉ stack ∧ load file = .ok text ∧
      read load limits (stack ++ [file]) text = .error ⟨cause, files⟩ := by
  rcases read_eq_error h with ⟨_, _, he⟩ | ⟨_, _, he, -⟩ | ⟨target, htarget, _, hfetch⟩
  · cases he
  · cases he
  · rcases fetch_eq_error hfetch with
      ⟨-, he⟩ | ⟨_, he⟩ | he | ⟨text, ⟨cause', files'⟩, hmem, hload, hread, he⟩
    · cases he
    · cases he
    · cases he
    · cases he
      exact ⟨text, htarget, hmem, hload, hread⟩

/-- An error comes from the text that its files lead to. -/
theorem leads_of_read_error {files : List String}
    (h : read load limits stack source = .error ⟨cause, files⟩) :
    ∃ text, Leads load limits source files text ∧
      read load limits (stack ++ files) text = .error ⟨cause, []⟩ ∧
      (stack.Nodup → (stack ++ files).Nodup) := by
  induction files generalizing stack source with
  | nil =>
    rw [List.append_nil]
    exact ⟨source, .here, h, id⟩
  | cons file files ih =>
    obtain ⟨text, himports, hmem, hload, hread⟩ := read_error_cons h
    obtain ⟨last, hleads, hlast, hnodup⟩ := ih hread
    rw [List.append_assoc, List.singleton_append] at hlast hnodup
    refine ⟨last, .get (gets_of_mem_imports himports) hload hleads, hlast, fun hstack => ?_⟩
    apply hnodup
    -- a file that is on the stack already is refused as a cycle, which lists no file
    rw [List.nodup_append]
    refine ⟨hstack, List.nodup_singleton file, ?_⟩
    rintro a ha b hb rfl
    exact hmem (List.mem_singleton.1 hb ▸ ha)

/-- **An error of reading lists the files that lead to the text that is wrong**, outermost first.  The
text that was to be read imports the first of them, each of them could be loaded and imports the next,
and the text of the last one, or the text itself if there is none, cannot be read while these files are
being imported.  Reading it fails for the same cause, on a line of that text.  No file is listed twice,
nor is the origin listed. -/
theorem ofSource_error_path (load : Loader) (limits : Limits) (origin : Option String)
    (source : String) (cause : Cause) (files : List String)
    (h : ofSource load limits origin source = .error ⟨cause, files⟩) :
    ∃ text line, Leads load limits source files text ∧
      read load limits (origin.toList ++ files) text = .error ⟨cause, []⟩ ∧
      ((∃ g, cause = .lexical line g) ∨ ∃ g, cause = .grammar line g) ∧ IsLine text line ∧
      (origin.toList ++ files).Nodup := by
  obtain ⟨text, hleads, hread, hnodup⟩ := leads_of_read_error h
  obtain ⟨line, hcause, hline⟩ := isLine_of_read_error hread
  have horigin : origin.toList.Nodup := by cases origin <;> simp
  exact ⟨text, line, hleads, hread, hcause, hline, hnodup horigin⟩

/-- A file that imports another on its second line, which has a chained comparison on its own. -/
def nestedFault : Loader :=
  .ofList [("a", .ok "x = True;\nGet \"b\";"), ("b", .ok "\ny = x < x < x;\n")]

theorem ofSource_error_path_nestedFault :
    ofSource nestedFault {} (some "c") "Get \"a\";" =
      .error ⟨.grammar 2 .chainedComparison, ["a", "b"]⟩ ∧
    ∃ text line, Leads nestedFault {} "Get \"a\";" ["a", "b"] text ∧
      read nestedFault {} ["c", "a", "b"] text = .error ⟨.grammar 2 .chainedComparison, []⟩ ∧
      ((∃ g, Cause.grammar 2 .chainedComparison = .lexical line g) ∨
        ∃ g, Cause.grammar 2 .chainedComparison = .grammar line g) ∧ IsLine text line ∧
      ["c", "a", "b"].Nodup := by
  have h : ofSource nestedFault {} (some "c") "Get \"a\";" =
      .error ⟨.grammar 2 .chainedComparison, ["a", "b"]⟩ := by with_unfolding_all rfl
  exact ⟨h, ofSource_error_path nestedFault {} (some "c") _ _ _ h⟩

end Program

end TableScript
