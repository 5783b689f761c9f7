import TableScript.Proofs.Interpreter.Phases

/-!
# Errors and the files that they name

An error at run time lists files, and the last of them should be the file that it came from; an error
that lists none should have come from the script itself.  For a script that runs on a new interpreter
this is so, with one exception (`run_error_attribution`).  Code of the script marks no errors.  So when
code of a file calls a function that the script wrote, and that fails, the error is marked on its way
out of the file, and by that file only (`run_error_attribution_fails_for_callback`).  Where no file
makes calls, there is no exception.

That an error was raised at a node is said by `RaisedAt`: the node is on the line of the error, and its
place is the one that the error comes from.  Where a node was written is known from how the program was
read (`writtenIn_of_read`): on a line of the text of the file that it belongs to.  Both are needed, for
a run knows of files only what function literals note.
-/

namespace TableScript

/-- An error of a run was raised by code on the line and at the place of a node of the program. -/
structure Run.RaisedAt (fuel : Nat) (p : Program) (m : Machine) (e : Error) (n : Node) : Prop where
  node : n ∈ nodesAll ⟨m.file, false⟩ p
  line : ∃ reason, e.cause = .runtime n.line reason
  place : ∀ o, Run.ComesFrom fuel p m e o ↔ o = n.place

namespace Interpreter

variable {limits : Limits} {load : Loader}

/-- A new interpreter holds no values. -/
theorem not_holds_new (v : Value) : ¬ (new limits load).machine.Holds v := by
  intro h
  cases h with
  | bound hframe he =>
    obtain rfl := List.mem_singleton.1 (Array.mem_toList_iff.2 hframe)
    cases he
  | result hframe hkind =>
    obtain rfl := List.mem_singleton.1 (Array.mem_toList_iff.2 hframe)
    cases hkind
  | entry htable _ => exact absurd htable (Array.not_mem_empty _)

/-- An error of a program without a machine's past was raised at one of its nodes, and the last of its
files is the file of that node, unless the node is in a function that belongs to no file and the last
of the files makes calls. -/
theorem raisedAt_of_execute {fuel : Nat} {p : Program} {e : Error}
    (h : (Run.execute fuel p (new limits load).machine).1 = .error (.failed e)) :
    ∃ n, Run.RaisedAt fuel p (new limits load).machine e n ∧
      (n.place.file = e.files.getLast? ∨ n.place = ⟨none, true⟩ ∧
        ∃ n' ∈ nodesAll ⟨none, false⟩ p, n'.form = .call ∧ n'.place.file = e.files.getLast?) := by
  obtain ⟨n, reason, hn, hcause, hfiles, hfrom⟩ :=
    Run.exists_comesFrom (S := (· ∈ nodesAll ⟨none, false⟩ p)) (fun _ hn => hn)
      (fun f hf => absurd hf (not_holds_new _)) h
  refine ⟨n, ⟨hn, ⟨reason, hcause⟩, fun o => ⟨fun ho => ho.unique hfrom, fun ho => ho ▸ hfrom⟩⟩, ?_⟩
  generalize n.place = o at hfiles
  generalize e.files = files at hfiles
  cases hfiles with
  | own => exact .inl rfl
  | file hlast => exact .inl (by rw [← hlast]; exact Option.or_none)
  | callback hcalls =>
    rcases hlast : files.getLast? with - | name
    · exact .inl rfl
    · obtain ⟨n', hn', hform, hfile⟩ := hcalls name (by rw [hlast]; rfl)
      exact .inr ⟨rfl, n', hn', hform, hfile⟩

/-- **The last file that an error lists is the file that it came from**, if a script fails at run time
on a new interpreter, unless it came from a function that the script itself wrote and the last file is
one whose code makes calls.  The place it came from is a node of the program that was run, and this was
written in the script or in a file, on a line of its text; so were all nodes, and each function notes
the file that it was written in. -/
theorem run_error_attribution (limits : Limits) (load : Loader) (source : String) (fuel : Nat)
    (e : Error) (h : (run fuel source (new limits load)).1 = .error (.failed e))
    (hkind : e.kind.OfRunning) :
    ∃ p n, (accept (fun i => i.parse source) (new limits load)).1 = .ok p ∧
      Run.RaisedAt fuel p (new limits load).machine e n ∧
      (∀ n' ∈ nodesAll ⟨none, false⟩ p, n'.WrittenIn load none source) ∧
      (n.place.file = e.files.getLast? ∨ n.place = ⟨none, true⟩ ∧
        ∃ n' ∈ nodesAll ⟨none, false⟩ p, n'.form = .call ∧ n'.place.file = e.files.getLast?) := by
  rcases accept_bind_cases (fun i => i.parse source) (Run.execute fuel) (new limits load) with
    ⟨e', hread, hrun⟩ | ⟨q, hread, hrun⟩
  · rw [run, hrun] at h
    cases h
    exact absurd hkind (Program.kind_of_read_error hread).not_ofRunning
  · rw [run, hrun] at h
    obtain ⟨n, hraised, hfiles⟩ := raisedAt_of_execute h
    refine ⟨(q.label 1).1, n, ?_, hraised, ?_, hfiles⟩
    · simp only [accept, hread]
      rfl
    · -- numbering the function literals keeps the nodes
      rw [Program.label, nodesAll_label]
      exact Program.writtenIn_of_read hread

/-- A file with a function that calls its argument, and a file with a function that fails. -/
def callingFiles : Loader :=
  .ofList [("lib", .ok "a = Function(f) \x7bReturn f();\x7d;"),
    ("sub", .ok "b = Function() \x7bReturn x;\x7d;")]

/-- A function of one file fails where a function of another calls it. -/
theorem run_error_attribution_callingFiles :
    (run 9 "Get \"lib\"; Get \"sub\";\n\na(b);" (new {} callingFiles)).1 =
      .error (.failed ⟨.runtime 1 (.undefinedName "x"), ["lib", "sub"]⟩) ∧
    ∃ p n, (accept (fun i => i.parse "Get \"lib\"; Get \"sub\";\n\na(b);")
        (new {} callingFiles)).1 = .ok p ∧
      Run.RaisedAt 9 p (new {} callingFiles).machine
        ⟨.runtime 1 (.undefinedName "x"), ["lib", "sub"]⟩ n ∧
      (∀ n' ∈ nodesAll ⟨none, false⟩ p,
        n'.WrittenIn callingFiles none "Get \"lib\"; Get \"sub\";\n\na(b);") ∧
      (n.place.file = some "sub" ∨ n.place = ⟨none, true⟩ ∧
        ∃ n' ∈ nodesAll ⟨none, false⟩ p, n'.form = .call ∧ n'.place.file = some "sub") := by
  have hfails : (run 9 "Get \"lib\"; Get \"sub\";\n\na(b);" (new {} callingFiles)).1 =
      .error (.failed ⟨.runtime 1 (.undefinedName "x"), ["lib", "sub"]⟩) := by decide +kernel
  exact ⟨hfails, run_error_attribution {} callingFiles _ 9 _ hfails (.inl rfl)⟩

/-- A function of the script fails where a function of a file calls it.  The error is marked with the
file, which has no such line. -/
theorem run_error_attribution_fails_for_callback :
    (run 9 "Get \"lib\";\n\na(Function() \x7bReturn x;\x7d);" (new {} callingFiles)).1 =
      .error (.failed ⟨.runtime 3 (.undefinedName "x"), ["lib"]⟩) ∧
    callingFiles "lib" = .ok "a = Function(f) \x7bReturn f();\x7d;" ∧
    ¬ IsLine "a = Function(f) \x7bReturn f();\x7d;" 3 := by
  refine ⟨by decide +kernel, rfl, ?_⟩
  rintro ⟨-, hline⟩
  revert hline
  decide

end Interpreter

end TableScript
