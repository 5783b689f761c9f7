import TableScript.Proofs.Parsing.Tracking
import TableScript.Proofs.Reading.Limits
import TableScript.Proofs.Reading.Provenance

/-!
# An import means the same wherever it stands

The files that are being imported are used for two things: a file among them is refused, and function
literals note the last of them.  So fewer files around a text refuse less, and what is read is the same
but for what its own function literals note (`read_of_subset`).  `noting` says what "its own" means: it
replaces the note of each function literal of a text, and it leaves imported programs alone.

It follows that the program that an import holds is the one that its file has by itself, however deep it
stands (`ofSource_of_embeds`).  Along the way each literal is seen to note the file of the innermost one
around it.

The proof is in two steps, since parsing with other files around differs in two places.  Imports that
could be fetched are fetched with fewer files as well, and a parser that succeeds does not see the others
(`program_of_le`).  The file to be noted is only copied into the tree, so it may as well be replaced
afterwards (`program_file`).
-/

namespace TableScript

/-! ### Imports at any depth -/

/-- A program holds an import, at the top or in a program that it imports. -/
inductive Program.Embeds : Program → Import → Prop
  | here {p i} : i ∈ getsAll p → Embeds p i
  | inside {p i j} : i ∈ getsAll p → Embeds i.program j → Embeds p j

namespace Program

variable {load : Loader} {limits : Limits} {stack stack' : List String} {source : String} {p : Program}

/-- The own function literals of a program that was read note the innermost file around it. -/
theorem noting_of_read (h : read load limits stack source = .ok p) :
    p.noting stack.getLast? = p := by
  rw [read_eq] at h
  rcases hscan : Token.scan limits.lexeme source with e | tokens
  · rw [hscan] at h
    cases h
  · simp only [hscan] at h
    have hfile := Parser.program_file (setting load limits stack) stack.getLast? (Cursor.ofList tokens)
    rw [h] at hfile
    exact (Except.ok.inj (h.symm.trans hfile)).symm

/-- A file that is not on the stack is fetched if its text can be read with it on top. -/
theorem fetch_of_read {line : Nat} {file text : String} (hmem : file ∉ stack)
    (hload : load file = .ok text)
    (hread : read load limits (stack ++ [file]) text = .ok p) :
    fetch load limits stack line file = .ok p := by
  rw [fetch, fetchWith, if_neg (by simpa using hmem), hload]
  simp only [hread]
  rfl

/-- With fewer files around it, an import that could be fetched still is, and it is the same. -/
theorem fetch_of_subset (hsub : stack ⊆ stack') {file : String}
    (hread : file ∉ stack' → ∀ text q, read load limits (stack' ++ [file]) text = .ok q →
      read load limits (stack ++ [file]) text = .ok (q.noting (some file)))
    (line : Nat) :
    SameUnless (fun _ => True) (fetch load limits stack' line file)
      (fetch load limits stack line file) := by
  rcases hfetch : fetch load limits stack' line file with e | q
  · exact .inr ⟨e, rfl, trivial⟩
  · obtain ⟨hmem, text, hload, htext⟩ := fetch_eq_ok hfetch
    -- the literals of the file note the file itself, whatever is around it
    have hnoting : q.noting (some file) = q := by
      have hsame := noting_of_read htext
      rwa [List.getLast?_concat] at hsame
    refine .inl (fetch_of_read (fun h => hmem (hsub h)) hload ?_)
    rw [hread hmem text q htext, hnoting]

/-- **Fewer files around a text** leave it as it is, but for the file that its function literals note. -/
theorem read_of_subset (hsub : stack ⊆ stack') (h : read load limits stack' source = .ok p) :
    read load limits stack source = .ok (p.noting stack.getLast?) := by
  induction stack', source using stack_induction limits generalizing stack p with
  | step stack' source ih =>
    rw [read_eq] at h ⊢
    rcases hscan : Token.scan limits.lexeme source with e | tokens
    · rw [hscan] at h
      cases h
    · simp only [hscan] at h
      have hfetch : ∀ file ∈ targets (Cursor.ofList tokens).tokens, ∀ line,
          SameUnless (fun _ => True) (fetch load limits stack' line file)
            (fetch load limits stack line file) := by
        refine fun file hfile => fetch_of_subset hsub fun hmem text q hq => ?_
        rw [tokens_of_scan hscan] at hfile
        have hsub' : stack ++ [file] ⊆ stack' ++ [file] :=
          List.append_subset.2 ⟨fun _ h => List.mem_append_left _ (hsub h), by simp⟩
        have hread := ih file text hmem (length_le_of_mem_targets hscan hfile) hsub' hq
        rwa [List.getLast?_concat] at hread
      let st : Setting := ⟨limits, stack'.getLast?, fetch load limits stack⟩
      have hsame := Parser.program_of_le (setting load limits stack') st (Nat.le_refl _) rfl
        (fun _ => trivial) hfetch
      have hfile := Parser.program_file st stack.getLast? (Cursor.ofList tokens)
      rcases hsame with hsame | ⟨e, he, -⟩
      · rw [hsame, h] at hfile
        exact hfile
      · cases h.symm.trans he

/-- An import at any depth holds the program that its file has by itself. -/
theorem ofSource_of_embeds {i : Import} (h : read load limits stack source = .ok p)
    (hi : Embeds p i) :
    ∃ text, load i.file = .ok text ∧ ofSource load limits (some i.file) text = .ok i.program := by
  induction hi generalizing stack source with
  | @here p i hi =>
    obtain ⟨-, text, hload, hread⟩ := fetch_eq_ok (fetched_of_read h i hi)
    have halone := read_of_subset (List.subset_append_right stack [i.file]) hread
    have hsame := noting_of_read hread
    rw [List.getLast?_concat] at hsame
    rw [List.getLast?_singleton, hsame] at halone
    exact ⟨text, hload, halone⟩
  | inside hi _ ih =>
    obtain ⟨-, text, -, hread⟩ := fetch_eq_ok (fetched_of_read h _ hi)
    exact ih hread

/-- **An import means the same wherever it is imported from.**  A text that is read with some files around
it is read with fewer files around it as well.  The tree is the same but for the file that the function
literals of the text itself note, which is the last one around it.  So in a program that was read, each
of the imports at any depth holds the program that its file has by itself.  And each function literal notes the
file of the innermost import around it, or the origin if there is none. -/
theorem import_same_everywhere (load : Loader) (limits : Limits) :
    (∀ stack stack' source p, stack ⊆ stack' → read load limits stack' source = .ok p →
      read load limits stack source = .ok (p.noting stack.getLast?) ∧
        p.noting stack'.getLast? = p) ∧
    (∀ origin source p, ofSource load limits origin source = .ok p →
      p.noting origin = p ∧
      ∀ i, Embeds p i → i.program.noting (some i.file) = i.program ∧
        ∃ text, load i.file = .ok text ∧
          ofSource load limits (some i.file) text = .ok i.program) := by
  refine ⟨fun stack stack' source p hsub h => ⟨read_of_subset hsub h, noting_of_read h⟩,
    fun origin source p h => ⟨?_, fun i hi => ?_⟩⟩
  · have horigin : origin.toList.getLast? = origin := by cases origin <;> rfl
    have hnoting := noting_of_read h
    rwa [horigin] at hnoting
  · obtain ⟨text, hload, halone⟩ := ofSource_of_embeds h hi
    exact ⟨noting_of_read halone, text, hload, halone⟩

/-- A file with a function that imports another file, which has a function of its own. -/
def functionFiles : Loader :=
  .ofList [("lib", .ok "f = Function() \x7bGet \"util\";\x7d;"),
    ("util", .ok "g = Function(x) \x7bReturn x;\x7d;")]

/-- What the inner of the two files has. -/
def utilProgram : Program :=
  [.assign 1 .define (.var 1 "g")
    (.function 1 (.mk 0 1 (some "util") ["x"] (.mk 1 [.ret 1 (.var 1 "x")])))]

/-- What the outer one has, with the file that it notes. -/
def libProgram (noted : Option String) : Program :=
  [.assign 1 .define (.var 1 "f")
    (.function 1 (.mk 0 1 noted [] (.mk 1 [.get 1 "util" utilProgram])))]

/-- The outer file read while two other files are being imported, and without any file around it; then
imported, where the inner file is an import inside of a function inside of an import. -/
theorem import_same_everywhere_functionFiles :
    (read functionFiles {} ["main", "lib"] "f = Function() \x7bGet \"util\";\x7d;" =
        .ok (libProgram (some "lib")) ∧
      read functionFiles {} [] "f = Function() \x7bGet \"util\";\x7d;" = .ok (libProgram none)) ∧
    (ofSource functionFiles {} (some "main") "Get \"lib\";" =
        .ok [.get 1 "lib" (libProgram (some "lib"))] ∧
      ∃ text, functionFiles "util" = .ok text ∧
        ofSource functionFiles {} (some "util") text = .ok utilProgram) := by
  obtain ⟨hstacks, hembedded⟩ := import_same_everywhere functionFiles {}
  have hlib : read functionFiles {} ["main", "lib"] "f = Function() \x7bGet \"util\";\x7d;" =
      .ok (libProgram (some "lib")) := by with_unfolding_all rfl
  have hmain : ofSource functionFiles {} (some "main") "Get \"lib\";" =
      .ok [.get 1 "lib" (libProgram (some "lib"))] := by with_unfolding_all rfl
  have hutil : Embeds [.get 1 "lib" (libProgram (some "lib"))] ⟨1, "util", utilProgram⟩ :=
    .inside (i := ⟨1, "lib", libProgram (some "lib")⟩) List.mem_cons_self (.here List.mem_cons_self)
  exact ⟨⟨hlib, (hstacks [] _ _ _ (List.nil_subset _) hlib).1⟩, hmain, ((hembedded _ _ _ hmain).2 _ hutil).2⟩

end Program

end TableScript
