import Mathlib.Logic.Relation
import TableScript.Proofs.Parsing.Progress
import TableScript.Proofs.Reading.Imports

/-!
# Import resolution

Reading a text reads the texts that it imports, which a loader may make up as it goes.  Three things
are shown.

Reading ends (`readTo_eq`).  `readTo beyond n` is the plain recursion, cut off at `n` texts inside one
another, where it asks `beyond` instead.  With more texts than there are names to import it never asks.

No program holds a cycle; this is `nodup_of_chain`.

An import is refused as cyclic only if the files around it come back to its name (`path_of_cyclic`):
the names that an error lists are a path in the graph of imports, so an acyclic graph gives no such
error.
-/

namespace TableScript

namespace Program

variable {load : Loader} {limits : Limits} {stack : List String} {source : String}

/-! ### Reading ends -/

/-- Reading with at most `n` texts inside one another; `beyond` is asked for what is further in. -/
def readTo (load : Loader) (limits : Limits)
    (beyond : List String → String → Except Error Program) :
    Nat → List String → String → Except Error Program
  | 0, stack, source => beyond stack source
  | n + 1, stack, source =>
    match Token.scan limits.lexeme source with
    | .error e => .error e
    | .ok tokens =>
      let fetch := fetchWith load (readTo load limits beyond n) stack
      (Parser.program ⟨limits, stack.getLast?, fetch⟩ (Cursor.ofList tokens)).1

/-- Cutting off further in than there are names to import changes nothing. -/
theorem readTo_eq {beyond : List String → String → Except Error Program} {n : Nat}
    (hn : unusedNames limits.lexeme stack < n) :
    readTo load limits beyond n stack source = read load limits stack source := by
  induction n generalizing stack source with
  | zero => omega
  | succ n ih =>
    rw [readTo, read_eq]
    rcases hscan : Token.scan limits.lexeme source with e | tokens
    · rfl
    · exact congrArg Prod.fst (program_of_scan hscan fun file text hlt => ih (by omega))

/-! ### Cyclic imports -/

/-- A file imports another. -/
def Imports (load : Loader) (limits : Limits) (a b : String) : Prop :=
  ∃ text, load a = .ok text ∧ b ∈ imports limits text

/-- A text leads to a file through imports. -/
def Reaches (load : Loader) (limits : Limits) (source file : String) : Prop :=
  ∃ a ∈ imports limits source, Relation.ReflTransGen (Imports load limits) a file

/-- The graph of the files that a text leads to has no cycle, nor does it lead back to the file that
the text came from. -/
structure Acyclic (load : Loader) (limits : Limits) (origin : Option String) (source : String) :
    Prop where
  files : ∀ file, Reaches load limits source file →
    ¬ Relation.TransGen (Imports load limits) file file
  origin : ∀ file, Reaches load limits source file → origin ≠ some file

/-- Files of which the first is imported by a text, and each next one by the one before. -/
inductive Path (load : Loader) (limits : Limits) : String → List String → Prop
  | one {source file} : file ∈ imports limits source → Path load limits source [file]
  | more {source file text files} : file ∈ imports limits source → load file = .ok text →
      Path load limits text files → Path load limits source (file :: files)

theorem Path.reaches {files : List String} (h : Path load limits source files) :
    ∀ file ∈ files, Reaches load limits source file := by
  induction h with
  | one hfile =>
    intro file hmem
    obtain rfl := List.mem_singleton.1 hmem
    exact ⟨_, hfile, .refl⟩
  | more hfile hload _ ih =>
    intro file hmem
    rcases List.mem_cons.1 hmem with rfl | hmem
    · exact ⟨_, hfile, .refl⟩
    · obtain ⟨a, ha, hreach⟩ := ih file hmem
      exact ⟨_, hfile, .head ⟨_, hload, ha⟩ hreach⟩

/-- From each file of a path there is a way to its last. -/
theorem Path.transGen {files : List String} {last : String}
    (h : Path load limits source (files ++ [last])) :
    ∀ file ∈ files, Relation.TransGen (Imports load limits) file last := by
  induction files generalizing source with
  | nil => simp
  | cons a files ih =>
    generalize hpath : a :: files ++ [last] = path at h
    cases h with
    | one => simp at hpath
    | more hfile hload hrest =>
      obtain ⟨rfl, rfl⟩ := List.cons.inj hpath
      intro file hmem
      rcases List.mem_cons.1 hmem with rfl | hmem
      · obtain ⟨b, hb, hreach⟩ := hrest.reaches last (by simp)
        exact Relation.TransGen.head' ⟨_, hload, hb⟩ hreach
      · exact ih hrest file hmem

/-- A file is not fetched because it is on the stack, because it cannot be loaded, or because its text
cannot be read. -/
theorem fetch_eq_error {line : Nat} {file : String} {e : Error}
    (h : fetch load limits stack line file = .error e) :
    (file ∈ stack ∧ e = .grammar line (.cyclicImport file)) ∨
      (∃ details, e = .grammar line (.importUnreadable file details)) ∨
      e = .grammar line (.importNotFound file) ∨
      ∃ text e', file ∉ stack ∧ load file = .ok text ∧
        read load limits (stack ++ [file]) text = .error e' ∧ e = e'.inFile file := by
  unfold fetch fetchWith at h
  split at h
  · next hmem =>
    cases h
    exact .inl ⟨by simpa using hmem, rfl⟩
  · next hmem =>
    rcases hload : load file with (_ | details) | text
    · rw [hload] at h
      cases h
      exact .inr (.inr (.inl rfl))
    · rw [hload] at h
      cases h
      exact .inr (.inl ⟨details, rfl⟩)
    · rw [hload] at h
      rcases hread : read load limits (stack ++ [file]) text with e' | p
      · simp only [hread] at h
        cases h
        exact .inr (.inr (.inr ⟨text, e', by simpa using hmem, rfl, hread, rfl⟩))
      · simp only [hread] at h
        cases h

/-- A text is not read because of an error of its own, or because of one of its imports. -/
theorem read_eq_error {e : Error} (h : read load limits stack source = .error e) :
    (∃ line g, e = .lexical line g) ∨ (∃ line g, e = .grammar line g ∧ g.isImport = false) ∨
      ∃ file ∈ imports limits source, ∃ line, fetch load limits stack line file = .error e := by
  rw [read_eq] at h
  unfold imports
  rcases hscan : Token.scan limits.lexeme source with e₁ | tokens
  · rw [hscan] at h
    cases h
    obtain ⟨line, g, rfl⟩ := Token.scan_error hscan
    exact .inl ⟨line, g, rfl⟩
  · rw [hscan] at h
    rcases Parser.program_error h with hown | ⟨file, hfile, line, hfetch⟩
    · exact .inr (.inl hown)
    · rw [tokens_of_scan hscan] at hfile
      exact .inr (.inr ⟨file, hfile, line, hfetch⟩)

/-- A cyclic import is on the stack itself, or it is one of a file that is imported. -/
theorem read_eq_cyclic {line : Nat} {file : String} {files : List String}
    (h : read load limits stack source = .error ⟨.grammar line (.cyclicImport file), files⟩) :
    ∃ target ∈ imports limits source,
      (target = file ∧ file ∈ stack ∧ files = []) ∨
      ∃ text inner, files = target :: inner ∧ load target = .ok text ∧
        read load limits (stack ++ [target]) text =
          .error ⟨.grammar line (.cyclicImport file), inner⟩ := by
  rcases read_eq_error h with ⟨_, _, he⟩ | ⟨_, g, he, hg⟩ | ⟨target, htarget, l, hfetch⟩
  · cases he
  · cases he
    cases hg
  · refine ⟨target, htarget, ?_⟩
    rcases fetch_eq_error hfetch with
      ⟨hmem, he⟩ | ⟨_, he⟩ | he | ⟨text, e', -, hload, hread, he⟩
    · cases he
      exact .inl ⟨rfl, hmem, rfl⟩
    · cases he
    · cases he
    · obtain ⟨cause, inner⟩ := e'
      cases he
      exact .inr ⟨text, inner, rfl, hload, hread⟩

/-- An import is refused as cyclic where the files around it come back to its name. -/
theorem path_of_cyclic {line : Nat} {file : String} {files : List String}
    (h : read load limits stack source = .error ⟨.grammar line (.cyclicImport file), files⟩) :
    file ∈ stack ++ files ∧ Path load limits source (files ++ [file]) := by
  -- each file that the error lists was put on the stack before its text was read
  induction files generalizing stack source with
  | nil =>
    obtain ⟨target, htarget, ⟨rfl, hmem, -⟩ | ⟨_, _, hfiles, -⟩⟩ := read_eq_cyclic h
    · exact ⟨by simpa using hmem, .one htarget⟩
    · cases hfiles
  | cons a files ih =>
    obtain ⟨target, htarget, ⟨-, -, hfiles⟩ | ⟨text, _, hfiles, hload, hread⟩⟩ := read_eq_cyclic h
    · cases hfiles
    · cases hfiles
      obtain ⟨hmem, hpath⟩ := ih hread
      exact ⟨by simpa using hmem, .more htarget hload hpath⟩

theorem ne_cyclic_of_acyclic {origin : Option String} {line : Nat} {file : String}
    {files : List String} (hacyclic : Acyclic load limits origin source) :
    ofSource load limits origin source ≠ .error ⟨.grammar line (.cyclicImport file), files⟩ := by
  intro h
  obtain ⟨hmem, hpath⟩ := path_of_cyclic h
  have hreach : Reaches load limits source file := hpath.reaches file (by simp)
  rcases List.mem_append.1 hmem with horigin | hfile
  · exact hacyclic.origin file hreach (by simpa using horigin)
  · exact hacyclic.files file hreach (hpath.transGen file hfile)

/-- What holds of the imports that a text leads to. -/
structure Resolves (load : Loader) (limits : Limits) (origin : Option String) (source : String) :
    Prop where
  /-- Reading goes no further in than there are names that are not taken. -/
  ends : ∀ n beyond, unusedNames limits.lexeme origin.toList < n →
    readTo load limits beyond n origin.toList source = ofSource load limits origin source
  /-- Within a text each turn of a loop takes a token. -/
  advances : ∀ st n, Parser.LoopsAdvance st (Parser.levels st n) ∧
    Parser.Advances (Parser.programTurn st (Parser.outermost st))
  /-- Along nested imports all names differ. -/
  nodup : ∀ p files, ofSource load limits origin source = .ok p → Chain p files →
    (origin.toList ++ files).Nodup
  /-- The files around an import that is refused as cyclic lead to it, and its file is among them. -/
  path : ∀ line file files,
    ofSource load limits origin source = .error ⟨.grammar line (.cyclicImport file), files⟩ →
      (origin = some file ∨ file ∈ files) ∧ Path load limits source (files ++ [file])
  /-- Without a cycle none is refused so. -/
  acyclic : Acyclic load limits origin source → ∀ line file files,
    ofSource load limits origin source ≠ .error ⟨.grammar line (.cyclicImport file), files⟩

/-- **Import resolution ends and builds in no cycle**, whatever the loader serves.

Reading goes no further into imports than there are names that fit into a token and are not taken,
and within a text each turn of a loop takes a token.  Along nested imports of the program all names
differ, from one another and from the origin.  A file that is refused as cyclic is the origin or one
of the files around the error, and these are a path of imports that leads to it; so it is not refused
where the imports that a text leads to have no cycle. -/
theorem import_resolution (load : Loader) (limits : Limits) (origin : Option String)
    (source : String) : Resolves load limits origin source where
  ends n beyond hn := readTo_eq hn
  advances st n :=
    ⟨Parser.loopsAdvance (Parser.sound_levels st n), Parser.advances_programTurn st⟩
  nodup p files h hchain := by
    have horigin : origin.toList.Nodup := by cases origin <;> simp
    exact nodup_of_chain horigin h hchain
  path line file files h := by
    obtain ⟨hmem, hpath⟩ := path_of_cyclic h
    exact ⟨by simpa using hmem, hpath⟩
  acyclic hacyclic line file files := ne_cyclic_of_acyclic hacyclic

/-- Two files that import each other, two of which one imports the other, and one that imports a
missing file. -/
theorem import_resolution_of_two_files :
    (ofSource (.ofList [("a", .ok "Get \"b\";"), ("b", .ok "Get \"a\";")]) {} none "Get \"a\";" =
        .error ⟨.grammar 1 (.cyclicImport "a"), ["a", "b"]⟩ ∧
      (none = some "a" ∨ "a" ∈ ["a", "b"])) ∧
    (ofSource (.ofList [("a", .ok "Get \"b\";"), ("b", .ok "")]) {} (some "c") "Get \"a\";" =
        .ok [.get 1 "a" [.get 1 "b" []]] ∧
      ["c", "a", "b"].Nodup) ∧
    (Acyclic (.ofList [("a", .ok "Get \"b\";")]) {} none "Get \"a\";" ∧
      ∀ line file files, ofSource (.ofList [("a", .ok "Get \"b\";")]) {} none "Get \"a\";" ≠
        .error ⟨.grammar line (.cyclicImport file), files⟩) := by
  refine ⟨?_, ?_, ?_⟩
  · have h : ofSource (.ofList [("a", .ok "Get \"b\";"), ("b", .ok "Get \"a\";")]) {} none
        "Get \"a\";" = .error ⟨.grammar 1 (.cyclicImport "a"), ["a", "b"]⟩ := by with_unfolding_all rfl
    exact ⟨h, ((import_resolution _ _ _ _).path _ _ _ h).1⟩
  · have h : ofSource (.ofList [("a", .ok "Get \"b\";"), ("b", .ok "")]) {} (some "c")
        "Get \"a\";" = .ok [.get 1 "a" [.get 1 "b" []]] := by with_unfolding_all rfl
    have hchain : Chain [.get 1 "a" [.get 1 "b" []]] ["a", "b"] :=
      .step (i := ⟨1, "a", [.get 1 "b" []]⟩) List.mem_cons_self
        (.step (i := ⟨1, "b", []⟩) List.mem_cons_self .stop)
    exact ⟨h, (import_resolution _ _ _ _).nodup _ _ h hchain⟩
  · have himports :
        ∀ x y, Imports (.ofList [("a", .ok "Get \"b\";")]) {} x y → x = "a" ∧ y = "b" := by
      rintro x y ⟨text, hload, hy⟩
      by_cases hx : x = "a"
      · subst hx
        cases hload
        have htargets : imports {} "Get \"b\";" = ["b"] := by with_unfolding_all rfl
        rw [htargets] at hy
        exact ⟨rfl, List.mem_singleton.1 hy⟩
      · simp [Loader.ofList, List.lookup_cons, beq_false_of_ne hx] at hload
    have hacyclic : Acyclic (.ofList [("a", .ok "Get \"b\";")]) {} none "Get \"a\";" := by
      refine ⟨fun file _ hcycle => ?_, fun file _ => by simp⟩
      obtain ⟨x, hfirst, -⟩ := Relation.TransGen.head'_iff.1 hcycle
      obtain ⟨y, -, hlast⟩ := Relation.TransGen.tail'_iff.1 hcycle
      have hfile := (himports _ _ hfirst).1.symm.trans (himports _ _ hlast).2
      exact absurd hfile (by decide)
    exact ⟨hacyclic, (import_resolution _ _ _ _).acyclic hacyclic⟩

end Program

end TableScript
