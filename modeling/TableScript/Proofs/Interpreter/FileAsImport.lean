import TableScript.Interpreter
import TableScript.Proofs.Reading.Resolution
import TableScript.Proofs.Scanning.Layout

/-!
# Running a file and importing it

`runFile` reads a file as the text of its own name and runs it as the code of that file.  A script of
one statement, `Get "name";`, reads and runs it as an import.  The two do the same, step by step
(`run_get_eq_runFile`): the text is read with the same stack of files around it, errors of reading and
of running are marked with the name once, and the function literals get the same tags.  The import
takes one unit of fuel more, the one for its own statement.

The name has to be one that can be written between quotes and fits into a token (`scan_get`), and the
word `Get` has to fit into a token as well.  A name that cannot be loaded makes the two differ, since
only an import has a line to report.
-/

namespace TableScript

/-- The script that imports a file and does nothing else. -/
def getSource (file : String) : String := "Get \"" ++ file ++ "\";"

/-! ### Scanning -/

namespace Segment

/-- The four segments of an import. -/
theorem split_get {ts : List Char} (hts : ∀ x ∈ ts, isTextChar x = true) :
    split ('G' :: 'e' :: 't' :: ' ' :: '\"' :: (ts ++ ['\"', ';'])) =
      ([⟨.word, ['G', 'e', 't']⟩, ⟨.blank, [' ']⟩, ⟨.text, '\"' :: (ts ++ ['\"'])⟩,
        ⟨.symbol .semicolon, [';']⟩], []) := by
  have hword : next ('G' :: 'e' :: 't' :: ' ' :: '\"' :: (ts ++ ['\"', ';'])) =
      some (⟨.word, ['G', 'e', 't']⟩, ' ' :: '\"' :: (ts ++ ['\"', ';'])) := rfl
  have hblank : next (' ' :: '\"' :: (ts ++ ['\"', ';'])) =
      some (⟨.blank, [' ']⟩, '\"' :: (ts ++ ['\"', ';'])) := rfl
  have hsemicolon : next [';'] = some (⟨.symbol .semicolon, [';']⟩, []) := rfl
  have hend : split [] = ([], []) := by
    rw [split]
    rfl
  rw [split_of_next hword, split_of_next hblank, split_of_next (next_quoted hts _),
    split_of_next hsemicolon, hend]

end Segment

namespace Token

/-- An import is scanned as the word, the name and the semicolon. -/
theorem scan_get {limit : Nat} {file : String} (hchars : ∀ c ∈ file.toList, c ≠ '\"' ∧ c ≠ '\n')
    (hword : 3 ≤ limit) (hname : file.length + 2 ≤ limit) :
    scan limit (getSource file) =
      .ok [Keyword.getWord.at 1, ⟨.text file, 1⟩, Symbol.semicolon.at 1, ⟨.endOfInput, 1⟩] := by
  have hts : ∀ c ∈ file.toList, Segment.isTextChar c = true := by
    intro c hc
    simpa [Segment.isTextChar] using hchars c hc
  have hsource : (getSource file).toList =
      'G' :: 'e' :: 't' :: ' ' :: '\"' :: (file.toList ++ ['\"', ';']) := by
    simp [getSource, String.toList_append]
  have hget : Segment.token? limit ⟨.word, ['G', 'e', 't']⟩ = .ok (some (.keyword .getWord)) :=
    if_neg (by simpa using hword)
  have hblank : Segment.token? limit ⟨.blank, [' ']⟩ = .ok none := rfl
  have htext : Segment.token? limit ⟨.text, '\"' :: (file.toList ++ ['\"'])⟩ =
      .ok (some (.text file)) := by
    have hlength : ¬ limit < ('\"' :: (file.toList ++ ['\"'])).length := by
      rw [List.length_cons, List.length_append, String.length_toList, List.length_singleton]
      omega
    simp only [Segment.token?, Segment.unquote?_quoted, Segment.limited, if_neg hlength,
      String.ofList_toList]
  have hsemicolon : Segment.token? limit ⟨.symbol .semicolon, [';']⟩ =
      .ok (some (.symbol .semicolon)) :=
    if_neg (by simp only [List.length_singleton]; omega)
  unfold scan
  rw [hsource, Segment.split_get hts]
  simp only [ofSegments, hget, hblank, htext, hsemicolon, Segment.lineAfter]

end Token

/-! ### Parsing -/

namespace Parser

/-- A script of one import is what fetching its file gives. -/
theorem program_get (st : Setting) (file : String) :
    (program st (Cursor.ofList
        [Keyword.getWord.at 1, ⟨.text file, 1⟩, Symbol.semicolon.at 1, ⟨.endOfInput, 1⟩])).1 =
      (st.fetch 1 file).map fun p => [.get 1 file p] := by
  let start : Cursor := ⟨Keyword.getWord.at 1,
    [⟨.text file, 1⟩, Symbol.semicolon.at 1, ⟨.endOfInput, 1⟩]⟩
  let behind : Cursor := ⟨Symbol.semicolon.at 1, [⟨.endOfInput, 1⟩]⟩
  let finish : Cursor := ⟨⟨.endOfInput, 1⟩, []⟩
  show (iterate (programTurn st (outermost st)) [] start).1 = _
  have hget : statement st (outermost st) start =
      ((st.fetch 1 file).map (Stmt.get 1 file), behind) := get_eq st start
  have hturn : programTurn st (outermost st) [] start =
      (closedStatement st (outermost st) >>= fun s =>
        (pure (.again [s]) : Parser (Turn (List Stmt) Program))) start := rfl
  rcases hfetch : st.fetch 1 file with e | p
  · rw [hfetch] at hget
    have hclosed : closedStatement st (outermost st) start = (.error e, behind) :=
      Action.bind_of_error hget
    rw [Action.bind_of_error hclosed] at hturn
    rw [iterate, hturn]
    rfl
  · rw [hfetch] at hget
    have hclosed : closedStatement st (outermost st) start = (.ok (.get 1 file p), finish) := by
      rw [closedStatement, Action.bind_of_ok hget, expect_bind_of_eq _ rfl]
      rfl
    rw [Action.bind_of_ok hclosed] at hturn
    have hlt : finish.remaining < start.remaining := by
      show 0 < 3
      omega
    have hend : programTurn st (outermost st) [.get 1 file p] finish =
        (.ok (.finish [.get 1 file p]), finish) := rfl
    rw [iterate_again hturn hlt, iterate_finish hend]
    rfl

end Parser

/-! ### The two ways of running a file -/

namespace Interpreter

variable {i : Interpreter} {file text : String}

/-- The import is refused or read as the file itself is. -/
theorem parse_get (hchars : ∀ c ∈ file.toList, c ≠ '\"' ∧ c ≠ '\n')
    (hword : 3 ≤ i.machine.limits.lexeme) (hname : file.length + 2 ≤ i.machine.limits.lexeme)
    (hload : i.load file = .ok text) :
    i.parse (getSource file) = (i.parseFile file).map fun p => [.get 1 file p] := by
  have hfetch : Program.fetch i.load i.machine.limits [] 1 file = i.parseFile file := by
    rw [Program.fetch, Program.fetchWith, parseFile, hload]
    rfl
  show Program.read i.load i.machine.limits [] (getSource file) = _
  rw [Program.read_eq, Token.scan_get hchars hword hname]
  show (Parser.program _ _).1 = _
  rw [Parser.program_get]
  show (Program.fetch i.load i.machine.limits [] 1 file).map _ = _
  rw [hfetch]

/-- What is done with the value does not matter to which file the code is of. -/
theorem inFile_bind_pure {α β : Type} (origin : Option String) (x : Run α) (f : α → β) :
    Run.inFile origin (x >>= fun a => pure (f a)) = Run.inFile origin x >>= fun a => pure (f a) := by
  funext m
  rw [Action.bind_apply, Run.inFile_apply, Run.inFile_apply]
  split
  · rfl
  · cases origin with
    | none =>
      simp only [Action.between_apply, Action.bind_apply]
      rcases x { m with file := none } with ⟨_ | a, m'⟩
      · rfl
      · rfl
    | some name =>
      simp only [Action.between_apply, Action.mapError_apply, Action.bind_apply]
      rcases x { m with file := some name } with ⟨_ | a, m'⟩
      · rfl
      · rfl

/-- Carrying out an import is carrying out its program as the code of its file. -/
theorem execute_get (fuel line : Nat) (p : Program) :
    Run.execute (fuel + 1) [.get line file p] = Run.executeFile fuel file p := by
  rw [Run.executeFile, Run.execute, Run.execute, inFile_bind_pure]
  funext m
  simp only [Action.bind_apply, Run.execAll, Run.exec, Run.execRule]
  rcases Run.inFile (some file) (Run.execAll (Run.exec fuel) p) m with ⟨_ | (_ | _), m'⟩
  · rfl
  · rfl
  · rfl

/-- **Running a file is running a script that imports it.**  Whatever the interpreter has run before,
the two end in the same way, with the same errors marked with the same files, and leave the same
interpreter behind. -/
theorem run_get_eq_runFile (i : Interpreter) (fuel : Nat) (file text : String)
    (hchars : ∀ c ∈ file.toList, c ≠ '\"' ∧ c ≠ '\n')
    (hword : 3 ≤ i.machine.limits.lexeme) (hname : file.length + 2 ≤ i.machine.limits.lexeme)
    (hload : i.load file = .ok text) :
    run (fuel + 1) (getSource file) i = runFile fuel file i := by
  have hparse := parse_get hchars hword hname hload
  rw [run, runFile, Action.bind_apply, Action.bind_apply, accept, accept, hparse]
  rcases i.parseFile file with e | p
  · rfl
  · -- numbering goes into the import, and the tags are the same
    show onMachine (Run.execute (fuel + 1) [.get 1 file (p.label i.nextTag).1]) _ = _
    rw [execute_get]
    rfl

/-- A file that imports another and calls a function of it, which fails. -/
def failingFiles : Loader :=
  .ofList [("lib", .ok "Get \"sub\";\na();"), ("sub", .ok "a = Function() \x7bReturn x;\x7d;")]

theorem run_get_eq_runFile_failingFiles :
    (∀ c ∈ "lib".toList, c ≠ '\"' ∧ c ≠ '\n') ∧
    failingFiles "lib" = .ok "Get \"sub\";\na();" ∧
    (run 9 "Get \"lib\";" (new {} failingFiles)).1 =
      .error (.failed ⟨.runtime 1 (.undefinedName "x"), ["lib", "sub"]⟩) ∧
    run 9 "Get \"lib\";" (new {} failingFiles) = runFile 8 "lib" (new {} failingFiles) := by
  have hchars : ∀ c ∈ "lib".toList, c ≠ '\"' ∧ c ≠ '\n' := by simp
  have hload : failingFiles "lib" = .ok "Get \"sub\";\na();" := rfl
  refine ⟨hchars, hload, by decide +kernel, ?_⟩
  exact run_get_eq_runFile (new {} failingFiles) 8 "lib" _ hchars (by decide) (by decide) hload

end Interpreter

end TableScript
