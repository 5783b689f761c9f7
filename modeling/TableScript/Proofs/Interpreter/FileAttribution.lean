import TableScript.Proofs.Interpreter.Attribution

/-!
# Errors of files that are run

A file that is run by its name is code of that file from the start, and so are all functions that it
can come by: each of them was written in a file.  So there is no code that marks no errors, and the
exception that scripts have to allow for, a function of no file that a file calls, cannot arise.  An
error at run time lists the file that was run first and the file that it came from last
(`runFile_error_attribution`).

The line of such an error is a line of the file that it came from.  Lines are counted as an editor
counts them (`lineCount`): a line break at the very end opens no line of its own.  What failed is on
the line of a token, and a token has at least one character there.
-/

namespace TableScript

/-- How many lines a text has.  Each line break ends a line, and what stands behind the last one is a
line if it is not empty. -/
def lineCount (text : String) : Nat :=
  match text.toList.getLast? with
  | none => 0
  | some c => text.toList.count '\n' + if c = '\n' then 0 else 1

/-- A character is on one of the lines. -/
theorem count_lt_lineCount {text : String} {before rest : List Char} {c : Char}
    (h : text.toList = before ++ c :: rest) : before.count '\n' < lineCount text := by
  have hlast : text.toList.getLast? = some ((c :: rest).getLast (List.cons_ne_nil c rest)) := by
    rw [h, List.getLast?_append_cons, List.getLast?_eq_getLast_of_ne_nil]
  have hmem := List.getLast_mem (List.cons_ne_nil c rest)
  rw [lineCount, hlast]
  show before.count '\n' < text.toList.count '\n' + _
  rw [h, List.count_append]
  generalize (c :: rest).getLast (List.cons_ne_nil c rest) = last at hmem
  by_cases hbreak : last = '\n'
  · -- the last line break is not among those before the character
    subst hbreak
    have hpos := List.count_pos_iff.2 hmem
    omega
  · rw [if_neg hbreak]
    omega

namespace Token

variable {limit : Nat} {source : String}

theorem line_le_lineCount {ts : List Located} {line : Nat} {t : Located}
    (h : scan limit source = .ok (ts ++ [⟨.endOfInput, line⟩])) (ht : t ∈ ts) :
    t.line ≤ lineCount source := by
  obtain ⟨htail, -, htokens⟩ := scan_eq_ok_iff.1 h
  obtain ⟨rfl, -⟩ := List.append_inj' htokens rfl
  obtain ⟨xs, ⟨pattern, chars⟩, ys, hsplit, hline⟩ := exists_split_of_mem_located ht
  have hcuts := Segment.cuts_split source.toList
  have hwins : pattern.Wins chars := hcuts.wins ⟨pattern, chars⟩ (hsplit ▸ by simp)
  obtain ⟨c, us, rfl, -⟩ := Pattern.mem_language_iff.1 hwins.mem
  have hwhole := hcuts.append_eq
  rw [hsplit, htail, List.append_nil, List.flatMap_append, List.flatMap_cons] at hwhole
  have hlt := count_lt_lineCount hwhole.symm
  rw [hline, List.nil_append]
  omega

end Token

/-- Each node of a program that was read is on one of the lines of the text that it was written in. -/
theorem Program.line_le_lineCount_of_read {load : Loader} {limits : Limits} {stack : List String}
    {source : String} {p : Program} (h : read load limits stack source = .ok p) :
    ∀ n ∈ nodesAll ⟨stack.getLast?, false⟩ p, ∃ text,
      TextOf load stack.getLast? source n.place.file text ∧ 1 ≤ n.line ∧ n.line ≤ lineCount text := by
  refine exists_textOf_of_read (P := fun _ text n => 1 ≤ n.line ∧ n.line ≤ lineCount text) ?_ h
  intro file source ts line n hscan hown
  obtain ⟨t, ht, hline⟩ := hown.line
  rw [← hline]
  exact ⟨(Token.isLine_of_mem_scan hscan (List.mem_append_left _ ht)).1,
    Token.line_le_lineCount hscan ht⟩

/-- What belongs to a file has its text from there, if the text of the whole has. -/
theorem TextOf.load_eq {load : Loader} {name source text : String} {file : Option String}
    (hload : load name = .ok source) (h : TextOf load (some name) source file text) :
    ∃ name', file = some name' ∧ load name' = .ok text := by
  cases h with
  | source => exact ⟨name, rfl, hload⟩
  | loaded hload' => exact ⟨_, rfl, hload'⟩

/-- Code whose nodes all belong to files is blamed on the file of the node that failed. -/
theorem Attributed.getLast?_of_file {S : Node → Prop} {name file : String} {inFunction : Bool}
    {files : List String} {o : Place} (h : Attributed S ⟨some name, inFunction⟩ files o)
    (ho : o.file = some file) : (name :: files).getLast? = some file := by
  have hblamed : (name :: files).getLast? = files.getLast?.or (some name) := by
    rw [← getLast?_cons_or name files none, Option.or_none]
  rw [hblamed]
  cases h with
  | own => exact ho
  | file hlast => exact hlast.trans ho
  | callback => cases ho

/-- The file whose code runs is no value. -/
theorem Machine.Holds.of_file {m : Machine} {file : Option String} {v : Value}
    (h : Holds { m with file } v) : m.Holds v := by
  cases h with
  | bound hframe he => exact .bound hframe he
  | result hframe hkind => exact .result hframe hkind
  | entry htable he => exact .entry htable he

/-- A run as code of a file fails as the run itself does, with a mark for the file. -/
theorem Run.executeFile_eq_error {fuel : Nat} {name : String} {p : Program} {m : Machine} {e : Error}
    (hfile : m.file ≠ some name)
    (h : (executeFile fuel name p m).1 = .error (.failed e)) :
    ∃ inner, (execute fuel p { m with file := some name }).1 = .error (.failed inner) ∧
      e = inner.inFile name := by
  rw [executeFile, inFile_apply, if_neg hfile] at h
  simp only [Action.between_apply, Action.mapError_apply] at h
  rcases hrun : (execute fuel p { m with file := some name }).1 with s | v
  · rw [hrun] at h
    cases s with
    | failed inner =>
      cases h
      exact ⟨inner, rfl, rfl⟩
    | outOfFuel => cases h
  · rw [hrun] at h
    cases h

namespace Interpreter

/-- **An error of a file that is run lists that file first and the file that it came from last.**  If
a file is read and then fails at run time on a new interpreter, the error was raised at a node of the
program that was read, before it was marked with the file.  The last of its files is the one that the
node was written in, and the line of the error is one of the lines of that file's text.  All nodes were
written in the files that they belong to. -/
theorem runFile_error_attribution (limits : Limits) (load : Loader) (name : String) (fuel : Nat)
    (e : Error) (h : (runFile fuel name (new limits load)).1 = .error (.failed e))
    (hkind : e.kind.OfRunning) :
    ∃ p source inner n file text,
      (accept (fun i => i.parseFile name) (new limits load)).1 = .ok p ∧
      load name = .ok source ∧
      (∀ n' ∈ nodesAll ⟨some name, false⟩ p, n'.WrittenIn load (some name) source) ∧
      e = inner.inFile name ∧
      Run.RaisedAt fuel p { (new limits load).machine with file := some name } inner n ∧
      e.files.head? = some name ∧ e.files.getLast? = some file ∧ n.place.file = some file ∧
      load file = .ok text ∧ 1 ≤ n.line ∧ n.line ≤ lineCount text := by
  rcases accept_bind_cases (fun i => i.parseFile name) (Run.executeFile fuel name)
    (new limits load) with ⟨e', hparse, hrun⟩ | ⟨q, hparse, hrun⟩
  · rw [runFile, hrun] at h
    cases h
    exact absurd hkind (kind_of_parseFile_error hparse).not_ofRunning
  · rw [runFile, hrun] at h
    obtain ⟨source, hload, hread⟩ := parseFile_eq_ok hparse
    have hnew : (new limits load).machine.file ≠ some name := by rintro ⟨⟩
    obtain ⟨inner, hfails, rfl⟩ := Run.executeFile_eq_error hnew h
    -- numbering the function literals keeps the nodes
    have hnodes : nodesAll ⟨some name, false⟩ (q.label 1).1 = nodesAll ⟨some name, false⟩ q :=
      nodesAll_label _ q 1
    obtain ⟨n, reason, hn, hcause, hfiles, hfrom⟩ :=
      Run.exists_comesFrom (S := (· ∈ nodesAll ⟨some name, false⟩ (q.label 1).1)) (fun _ hn => hn)
        (fun f hf => absurd hf.of_file (not_holds_new _)) hfails
    obtain ⟨text, htext, hline⟩ := Program.line_le_lineCount_of_read hread n (hnodes ▸ hn)
    obtain ⟨file, hfile, hfileText⟩ := htext.load_eq hload
    refine ⟨(q.label 1).1, source, inner, n, file, text, ?_, hload, ?_, rfl, ⟨hn, ⟨reason, hcause⟩,
      fun o => ⟨fun ho => ho.unique hfrom, fun ho => ho ▸ hfrom⟩⟩, rfl,
      hfiles.getLast?_of_file hfile, hfile, hfileText, hline⟩
    · simp only [accept, hparse]
      rfl
    · rw [hnodes]
      exact Program.writtenIn_of_read hread

/-- A file that gives a function to a function of another file, which calls it. -/
def callbackFiles : Loader :=
  .ofList [("lib", .ok "a = Function(f) \x7bReturn f();\x7d;"),
    ("main", .ok "Get \"lib\";\n\na(Function() \x7bReturn x;\x7d);\n")]

/-- A function of the file that is run fails where a function of another file calls it. -/
theorem runFile_error_attribution_callbackFiles :
    (runFile 9 "main" (new {} callbackFiles)).1 =
      .error (.failed ⟨.runtime 3 (.undefinedName "x"), ["main", "lib", "main"]⟩) ∧
    ∃ p source inner n file text,
      (accept (fun i => i.parseFile "main") (new {} callbackFiles)).1 = .ok p ∧
      callbackFiles "main" = .ok source ∧
      (∀ n' ∈ nodesAll ⟨some "main", false⟩ p, n'.WrittenIn callbackFiles (some "main") source) ∧
      ⟨.runtime 3 (.undefinedName "x"), ["main", "lib", "main"]⟩ = inner.inFile "main" ∧
      Run.RaisedAt 9 p { (new {} callbackFiles).machine with file := some "main" } inner n ∧
      ["main", "lib", "main"].head? = some "main" ∧
      ["main", "lib", "main"].getLast? = some file ∧ n.place.file = some file ∧
      callbackFiles file = .ok text ∧ 1 ≤ n.line ∧ n.line ≤ lineCount text := by
  have hfails : (runFile 9 "main" (new {} callbackFiles)).1 =
      .error (.failed ⟨.runtime 3 (.undefinedName "x"), ["main", "lib", "main"]⟩) := by decide +kernel
  exact ⟨hfails, runFile_error_attribution {} callbackFiles "main" 9 _ hfails (.inl rfl)⟩

end Interpreter

end TableScript
