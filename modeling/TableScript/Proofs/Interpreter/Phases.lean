import TableScript.Proofs.Evaluation.Origin
import TableScript.Proofs.Evaluation.StackDiscipline
import TableScript.Proofs.Interpreter.FileAsImport
import TableScript.Proofs.Reading.Provenance

/-!
# Reading and running do not mix

A request is first read and then run.  Reading fails with errors in the text or in the grammar, running
with errors at run time, and the kind of an error shows which of the two it was (`phases_separate`).  So
if the kind is one of reading, nothing has been run and the interpreter is what it was; if it is one of
running, the text was read, and with it every text that it leads to.

What running can fail with is known from `exists_comesFrom`.  Reading is the induction on the files of
the error (`kind_of_read_error`): an error of an import is the error of the text that is imported, with
one more file.  That nothing is left out in reading is seen from the tokens: the names behind `Get` are
the imports of the tree, in order (`Derives.targets_eq`).
-/

namespace TableScript

/-! ### Kinds of errors -/

/-- The kinds of errors that reading can fail with. -/
def ErrorKind.OfReading (k : ErrorKind) : Prop := k = .lexical ∨ k = .grammar

/-- The kinds of errors that running can fail with. -/
def ErrorKind.OfRunning (k : ErrorKind) : Prop := k = .runtime ∨ k = .divisionByZero

theorem ErrorKind.OfReading.not_ofRunning {k : ErrorKind} (h : k.OfReading) : ¬ k.OfRunning := by
  rintro (rfl | rfl)
  · rcases h with h | h <;> cases h
  · rcases h with h | h <;> cases h

theorem Cause.ofRunning_runtime (line : Nat) (reason : RuntimeError) :
    (Cause.runtime line reason).kind.OfRunning := by
  cases reason with
  | divisionByZero => exact .inr rfl
  | _ => exact .inl rfl

/-! ### Running -/

namespace Run

theorem kind_of_execute_error {fuel : Nat} {p : Program} {m : Machine} {e : Error}
    (h : (execute fuel p m).1 = .error (.failed e)) : e.kind.OfRunning := by
  obtain ⟨n, reason, -, hcause, -⟩ :=
    exists_comesFrom (S := fun _ => True) (fun _ _ => trivial) (fun _ _ _ _ => trivial) h
  show e.cause.kind.OfRunning
  rw [hcause]
  exact Cause.ofRunning_runtime n.line reason

theorem kind_of_executeFile_error {fuel : Nat} {file : String} {p : Program} {m : Machine} {e : Error}
    (h : (executeFile fuel file p m).1 = .error (.failed e)) : e.kind.OfRunning := by
  rw [← Interpreter.execute_get fuel 1] at h
  exact kind_of_execute_error h

end Run

/-! ### Reading -/

namespace Program

variable {load : Loader} {limits : Limits} {stack : List String} {source : String}

/-- A text fails to be read for a reason of its own, or because a text that it imports does. -/
theorem read_error_cases {cause : Cause} {files : List String}
    (h : read load limits stack source = .error ⟨cause, files⟩) :
    cause.kind.OfReading ∨ ∃ file inner text, files = file :: inner ∧
      read load limits (stack ++ [file]) text = .error ⟨cause, inner⟩ := by
  rcases read_eq_error h with ⟨_, _, he⟩ | ⟨_, _, he, -⟩ | ⟨file, -, line, hfetch⟩
  · cases he
    exact .inl (.inl rfl)
  · cases he
    exact .inl (.inr rfl)
  · rcases fetch_eq_error hfetch with ⟨-, he⟩ | ⟨_, he⟩ | he | ⟨text, e', -, -, hread, he⟩
    · cases he
      exact .inl (.inr rfl)
    · cases he
      exact .inl (.inr rfl)
    · cases he
      exact .inl (.inr rfl)
    · obtain ⟨cause', inner⟩ := e'
      cases he
      exact .inr ⟨file, inner, text, rfl, hread⟩

theorem kind_of_read_error {e : Error} (h : read load limits stack source = .error e) :
    e.kind.OfReading := by
  obtain ⟨cause, files⟩ := e
  induction files generalizing stack source with
  | nil =>
    rcases read_error_cases h with hkind | ⟨_, _, _, hfiles, -⟩
    · exact hkind
    · cases hfiles
  | cons file files ih =>
    rcases read_error_cases h with hkind | ⟨_, _, _, hfiles, hread⟩
    · exact hkind
    · cases hfiles
      exact ih hread

/-! ### All imports of a text -/

end Program

namespace Program

variable {load : Loader} {limits : Limits} {stack : List String} {source : String} {p : Program}

theorem exists_import_of_mem_imports (h : read load limits stack source = .ok p) {file : String}
    (hfile : file ∈ imports limits source) : ∃ i ∈ getsAll p, i.file = file := by
  rw [imports_eq_of_read h] at hfile
  exact List.mem_map.1 hfile

/-- With a text, every text that it leads to was read. -/
theorem read_of_reaches (h : read load limits stack source = .ok p) {file : String}
    (hreach : Reaches load limits source file) :
    ∃ text stack' q, load file = .ok text ∧ read load limits (stack' ++ [file]) text = .ok q := by
  obtain ⟨first, hfirst, hpath⟩ := hreach
  induction hpath using Relation.ReflTransGen.head_induction_on generalizing stack source p with
  | refl =>
    obtain ⟨i, hi, rfl⟩ := exists_import_of_mem_imports h hfirst
    obtain ⟨-, text, hload, hread⟩ := fetch_eq_ok (fetched_of_read h i hi)
    exact ⟨text, stack, i.program, hload, hread⟩
  | head hedge _ ih =>
    obtain ⟨i, hi, rfl⟩ := exists_import_of_mem_imports h hfirst
    obtain ⟨-, text, hload, hread⟩ := fetch_eq_ok (fetched_of_read h i hi)
    -- the text of the file is the one that was read
    obtain ⟨text', hload', hnext⟩ := hedge
    obtain rfl : text = text' := Except.ok.inj (hload.symm.trans hload')
    exact ih hread hnext

end Program

/-! ### Requests -/

/-- A text was read, and so was every text that it leads to through imports. -/
structure ReadWhole (load : Loader) (limits : Limits) (origin : Option String) (source : String) :
    Prop where
  own : ∃ p, Program.ofSource load limits origin source = .ok p
  imported : ∀ file, Program.Reaches load limits source file →
    ∃ text stack p, load file = .ok text ∧ Program.read load limits (stack ++ [file]) text = .ok p

theorem readWhole_of_ofSource {load : Loader} {limits : Limits} {origin : Option String}
    {source : String} {p : Program} (h : Program.ofSource load limits origin source = .ok p) :
    ReadWhole load limits origin source := ⟨⟨p, h⟩, fun _ => Program.read_of_reaches h⟩

namespace Interpreter

/-- What a request has to read was read, with everything that it leads to. -/
def Request.Read (i : Interpreter) : Request → Prop
  | .run source => ReadWhole i.load i.machine.limits none source
  | .runFile name => ∃ text, i.load name = .ok text ∧ ReadWhole i.load i.machine.limits (some name) text

/-- Reading fails and nothing else happens, or the program that was read is run. -/
theorem accept_bind_cases (read : Interpreter → Except Error Program) (x : Program → Run Unit)
    (i : Interpreter) :
    (∃ e, read i = .error e ∧
      (accept read >>= fun p => onMachine (x p)) i = (.error (.failed e), i)) ∨
    ∃ p, read i = .ok p ∧ (accept read >>= fun p => onMachine (x p)) i =
      onMachine (x (p.label i.nextTag).1) { i with nextTag := (p.label i.nextTag).2 } := by
  rw [Action.bind_apply, accept]
  rcases hread : read i with e | p
  · exact .inl ⟨e, rfl, rfl⟩
  · exact .inr ⟨p, rfl, rfl⟩

theorem kind_of_parseFile_error {i : Interpreter} {name : String} {e : Error}
    (h : i.parseFile name = .error e) : e.kind.OfReading := by
  unfold parseFile at h
  split at h
  · cases h
    exact .inr rfl
  · next source _ =>
    rcases hread : Program.ofSource i.load i.machine.limits (some name) source with e' | p
    · rw [hread] at h
      cases h
      have hkind : e'.kind.OfReading := Program.kind_of_read_error hread
      exact hkind
    · rw [hread] at h
      cases h

theorem parseFile_eq_ok {i : Interpreter} {name : String} {p : Program}
    (h : i.parseFile name = .ok p) :
    ∃ source, i.load name = .ok source ∧
      Program.ofSource i.load i.machine.limits (some name) source = .ok p := by
  unfold parseFile at h
  split at h
  · cases h
  · next source hload =>
    refine ⟨source, hload, ?_⟩
    rcases hread : Program.ofSource i.load i.machine.limits (some name) source with e | q
    · rw [hread] at h
      cases h
    · rw [hread] at h
      cases h
      rfl

theorem read_of_parseFile {i : Interpreter} {name : String} {p : Program}
    (h : i.parseFile name = .ok p) : (Request.runFile name).Read i := by
  obtain ⟨source, hload, hread⟩ := parseFile_eq_ok h
  exact ⟨source, hload, readWhole_of_ofSource hread⟩

/-- A request that fails has failed in reading and changed nothing, or it was read and has failed in
running. -/
theorem perform_error_cases {fuel : Nat} {request : Request} {i : Interpreter} {e : Error}
    (h : (request.perform fuel i).1 = .error (.failed e)) :
    (e.kind.OfReading ∧ (request.perform fuel i).2 = i) ∨ (e.kind.OfRunning ∧ request.Read i) := by
  cases request with
  | run source =>
    rcases accept_bind_cases (fun i => i.parse source) (Run.execute fuel) i with
      ⟨e', hread, hrun⟩ | ⟨p, hread, hrun⟩
    all_goals
      rw [Request.perform, run, hrun] at h ⊢
    · cases h
      exact .inl ⟨Program.kind_of_read_error hread, rfl⟩
    · exact .inr ⟨Run.kind_of_execute_error h, readWhole_of_ofSource hread⟩
  | runFile name =>
    rcases accept_bind_cases (fun i => i.parseFile name) (Run.executeFile fuel name) i with
      ⟨e', hread, hrun⟩ | ⟨p, hread, hrun⟩
    all_goals
      rw [Request.perform, runFile, hrun] at h ⊢
    · cases h
      exact .inl ⟨kind_of_parseFile_error hread, rfl⟩
    · exact .inr ⟨Run.kind_of_executeFile_error h, read_of_parseFile hread⟩

/-- **Reading and running do not mix.**  Running any program on any machine, as a script or as a file,
never fails with an error of a kind of reading, and reading any text never with one of a kind of
running.  So if a request fails with an error of reading, however deep in imports it arose, the
interpreter is exactly what it was, and if it fails with an error of running, its text and all texts
that it leads to were read. -/
theorem phases_separate :
    (∀ fuel p m e, (Run.execute fuel p m).1 = .error (.failed e) → ¬ e.kind.OfReading) ∧
    (∀ fuel file p m e, (Run.executeFile fuel file p m).1 = .error (.failed e) →
      ¬ e.kind.OfReading) ∧
    (∀ load limits origin source e, Program.ofSource load limits origin source = .error e →
      ¬ e.kind.OfRunning) ∧
    (∀ fuel (request : Request) i e, (request.perform fuel i).1 = .error (.failed e) →
      (e.kind.OfReading → (request.perform fuel i).2 = i) ∧
      (e.kind.OfRunning → request.Read i)) := by
  refine ⟨fun fuel p m e h hkind => ?_, fun fuel file p m e h hkind => ?_,
    fun load limits origin source e h => ?_, fun fuel request i e h => ?_⟩
  · exact hkind.not_ofRunning (Run.kind_of_execute_error h)
  · exact hkind.not_ofRunning (Run.kind_of_executeFile_error h)
  · exact (Program.kind_of_read_error h).not_ofRunning
  · rcases perform_error_cases h with ⟨hkind, hsame⟩ | ⟨hkind, hread⟩
    · exact ⟨fun _ => hsame, fun hrunning => absurd hrunning hkind.not_ofRunning⟩
    · exact ⟨fun hreading => absurd hkind hreading.not_ofRunning, fun _ => hread⟩

/-- An interpreter that has bound a name, with a file that imports one that is no program. -/
def usedInterpreter : Interpreter where
  machine := { scopes := Scopes.fresh.define "x" (.bool true) }
  load := .ofList [("a", .ok "Get \"b\";"), ("b", .ok ");"), ("c", .ok "y();")]

theorem phases_separate_usedInterpreter :
    ((Request.perform 9 (.run "x = y; Get \"a\";") usedInterpreter).1 =
        .error (.failed ⟨.grammar 1 (.unexpectedToken (.symbol .rightParen)), ["a", "b"]⟩) ∧
      (Request.perform 9 (.run "x = y; Get \"a\";") usedInterpreter).2 = usedInterpreter) ∧
    ((Request.perform 9 (.run "Get \"c\";") usedInterpreter).1 =
        .error (.failed ⟨.runtime 1 (.undefinedName "y"), ["c"]⟩) ∧
      ReadWhole usedInterpreter.load {} none "Get \"c\";") := by
  have hreading : (Request.perform 9 (.run "x = y; Get \"a\";") usedInterpreter).1 =
      .error (.failed ⟨.grammar 1 (.unexpectedToken (.symbol .rightParen)), ["a", "b"]⟩) := by decide +kernel
  have hrunning : (Request.perform 9 (.run "Get \"c\";") usedInterpreter).1 =
      .error (.failed ⟨.runtime 1 (.undefinedName "y"), ["c"]⟩) := by decide +kernel
  exact ⟨⟨hreading, (phases_separate.2.2.2 _ _ _ _ hreading).1 (.inr rfl)⟩,
    ⟨hrunning, (phases_separate.2.2.2 _ _ _ _ hrunning).2 (.inl rfl)⟩⟩

end Interpreter

end TableScript
