import Mathlib.Data.Countable.Basic
import Mathlib.Logic.Equiv.List
import TableScript.Proofs.Evaluation.Lines

/-!
# Where an error comes from

Code of many places takes part in a run: the script itself, the programs that it imports, and the
functions of either.  An error keeps a line but not a place.  Still the place is determined by what the
program does: an error comes from a place if renumbering the lines of all places changes the line of
the error as it changes the lines of that one (`ComesFrom`).  There is at most one such place
(`ComesFrom.unique`), and every failing run has one (`exists_comesFrom`).

The theorem also says what the files of the error have to do with the place.  Code of a file marks the
errors that leave it with the name of the file, unless the code around it is of the same file; code of
no file marks nothing.  So the last mark is the file of the place, with one exception: a function that
belongs to no file can be called by code that does, and then the last mark is a file that makes calls
(`Attributed`).

A renumbered program follows the program, and where it fails, it does so at a node (`follows_renumbered`).
A piece of code stands at a place, and the machine runs code of the file of that place; this is what calls and
imports restore by switching files.  `S` says which nodes there are at all.  One renumbering that gives no
number twice tells all nodes apart, and every other one comes from it by changing lines, which are carried
along.
-/

namespace TableScript

/-- Code of a file makes a call. -/
def Calls (S : Node → Prop) (name : String) : Prop :=
  ∃ n, S n ∧ n.form = .call ∧ n.place.file = some name

/-- How the files that an error lists name the place that it comes from, seen from code at `place`.
The file that is blamed is the last of them, or that of the code itself if there are none. -/
inductive Attributed (S : Node → Prop) (place : Place) : List String → Place → Prop
  /-- The code itself failed. -/
  | own : Attributed S place [] place
  /-- The file that is blamed is right. -/
  | file {files : List String} {name : String} {inFunction : Bool} :
      files.getLast?.or place.file = some name → Attributed S place files ⟨some name, inFunction⟩
  /-- A function that belongs to no file failed.  If a file is blamed, it is one that makes calls. -/
  | callback {files : List String} :
      (∀ name, files.getLast?.or place.file = some name → Calls S name) →
      Attributed S place files ⟨none, true⟩

namespace Attributed

variable {S : Node → Prop} {place inner o : Place} {files : List String}

/-- What is blamed does not change by a mark for the file of the code. -/
theorem getLast?_cons_or (name : String) (files : List String) (outer : Option String) :
    (name :: files).getLast?.or outer = files.getLast?.or (some name) := by
  rw [List.getLast?_cons]
  cases files.getLast? with
  | none => rfl
  | some last => rfl

/-- Code of the same file is not marked. -/
theorem same (hinner : inner ≠ ⟨none, false⟩) (hfile : place.file = inner.file)
    (h : Attributed S inner files o) : Attributed S place files o := by
  cases h with
  | own =>
    obtain ⟨file, inFunction⟩ := inner
    cases file with
    | none =>
      cases inFunction with
      | false => exact absurd rfl hinner
      | true => exact .callback fun name hname => (by cases hfile.symm.trans hname)
    | some name => exact .file hfile
  | file hlast => exact .file (by rwa [hfile])
  | callback hcalls => exact .callback (by rwa [hfile])

/-- Code of a file is marked with its name. -/
theorem marked {name : String} (hname : inner.file = some name) (h : Attributed S inner files o) :
    Attributed S place (name :: files) o := by
  cases h with
  | own =>
    obtain ⟨file, inFunction⟩ := inner
    obtain rfl : file = some name := hname
    exact .file rfl
  | file hlast => exact .file (by rwa [getLast?_cons_or, ← hname])
  | callback hcalls => exact .callback (by rwa [getLast?_cons_or, ← hname])

/-- Code of no file is not marked.  If it fails by itself, it is a function that fails, and the code
around it has called it. -/
theorem unmarked (hinner : inner ≠ ⟨none, false⟩) (hnone : inner.file = none)
    (hcalls : ∀ name, place.file = some name → Calls S name)
    (h : Attributed S inner files o) : Attributed S place files o := by
  cases h with
  | own =>
    obtain ⟨file, inFunction⟩ := inner
    obtain rfl : file = none := hnone
    cases inFunction with
    | false => exact absurd rfl hinner
    | true => exact .callback hcalls
  | file hlast =>
    rw [hnone, Option.or_none] at hlast
    exact .file (by rw [hlast, Option.some_or])
  | callback hinside =>
    rw [hnone, Option.or_none] at hinside
    refine .callback fun name hname => ?_
    rcases Option.or_eq_some_iff.1 hname with hlast | ⟨-, hplace⟩
    · exact hinside name hlast
    · exact hcalls name hplace

end Attributed

/-! ### Renumbering -/

/-- A number for each line of each place. -/
abbrev Renumbering := Place → Nat → Nat

/-- Gives each line of each place another number.  The body of a function is at the place of the file that the
function notes, so a function is renumbered in the same way wherever it has got to. -/
def Relabeling.ofPlace (g : Renumbering) : Relabeling Place where
  line := g
  noted _ file := file
  name _ name := name
  body _ file := ⟨file, true⟩
  imported _ name := ⟨some name, false⟩

/-- Changing the lines of renumbered code. -/
theorem Relabeling.alike_ofLine_after_ofPlace {g g' : Renumbering} {f : Nat → Nat}
    (hf : ∀ place line, f (g place line) = g' place line) :
    ((Relabeling.ofLine f).after (.ofPlace g)).Alike (.ofPlace g') fun p q => p.2 = q where
  line := by
    rintro ⟨_, place⟩ _ rfl line
    exact hf place line
  noted _ _ := rfl
  name _ _ := rfl
  body _ _ := rfl
  imported _ _ := rfl

section OfLine

variable {g g' : Renumbering} {f : Nat → Nat} (hf : ∀ place line, f (g place line) = g' place line)

include hf

theorem relabelAll_ofLine_ofPlace (place : Place) (p : Program) :
    relabelAll (.ofLine f) () (relabelAll (.ofPlace g) place p) = relabelAll (.ofPlace g') place p := by
  rw [relabelAll_relabelAll, relabelAll_congr (Relabeling.alike_ofLine_after_ofPlace hf) rfl]

theorem Value.relabel_ofLine_ofPlace (place : Place) (v : Value) :
    (v.relabel (.ofPlace g) place).relabel (.ofLine f) () = v.relabel (.ofPlace g') place := by
  cases v with
  | function r =>
    simp only [Value.relabel, r.relabel_relabel]
    rw [r.relabel_congr (Relabeling.alike_ofLine_after_ofPlace hf) rfl]
  | _ => rfl

theorem Machine.relabel_ofLine_ofPlace (place : Place) (m : Machine) :
    (m.relabel (.ofPlace g) place).relabel (.ofLine f) () = m.relabel (.ofPlace g') place := by
  simp only [Machine.relabel, Scopes.mapValues_mapValues, Tables.mapValues_mapValues,
    Value.relabel_ofLine_ofPlace hf]

end OfLine

theorem Renumbering.exists_injective :
    ∃ g : Renumbering, Function.Injective fun x : Place × Nat => g x.1 x.2 := by
  have : Countable Char := Function.Injective.countable fun _ _ => Char.toNat_inj.1
  have : Countable String := Function.Injective.countable fun _ _ => String.toList_inj.1
  have : Countable Place := by
    refine Function.Injective.countable (f := fun place => (place.file, place.inFunction)) ?_
    rintro ⟨file, inFunction⟩ ⟨file', inFunction'⟩ h
    cases h
    rfl
  obtain ⟨g, hg⟩ := exists_injective_nat (Place × Nat)
  exact ⟨fun place line => g (place, line), hg⟩

/-- Every renumbering comes from one that gives no number twice. -/
theorem Renumbering.exists_comp {g : Renumbering}
    (hg : Function.Injective fun x : Place × Nat => g x.1 x.2) (g' : Renumbering) :
    ∃ f : Nat → Nat, ∀ place line, f (g place line) = g' place line :=
  ⟨Function.extend (fun x : Place × Nat => g x.1 x.2) (fun x => g' x.1 x.2) id,
    fun place line => hg.extend_apply _ _ (place, line)⟩

/-! ### Following a program at a place -/

/-- The same code at a place with other lines, made of nodes in `S`. -/
def Terms.renumbered (S : Node → Prop) (g : Renumbering) (place : Place) : Terms where
  lines form line line' := S ⟨place, line, form⟩ ∧ line' = g place line
  function f f' := f' = f.relabel (.ofPlace g) ⟨f.file, true⟩ ∧ f.Within S
  params h := by rw [h.1, Routine.params_relabel]

/-- A failure at a node, and the same failure with another line there. -/
inductive Stop.Traced (S : Node → Prop) (g : Renumbering) (place : Place) : Stop → Stop → Prop
  | failure {n : Node} {reason : RuntimeError} {files : List String} :
      S n → Attributed S place files n.place → Traced S g place
        (.failed ⟨.runtime n.line reason, files⟩) (.failed ⟨.runtime (g n.place n.line) reason, files⟩)
  | outOfFuel : Traced S g place .outOfFuel .outOfFuel

/-- Running code at a place, and the same with other lines. -/
def Likeness.renumbered (S : Node → Prop) (g : Renumbering) (place : Place) :
    Likeness (.renumbered S g place) where
  file file file' := file = place.file ∧ file' = place.file
  same := Stop.Traced S g place

section Renumbered

variable {S : Node → Prop} {g : Renumbering} {place inner : Place}

theorem Likeness.lawful_renumbered (S : Node → Prop) (g : Renumbering) (place : Place) :
    (renumbered S g place).Lawful where
  fresh _ := trivial
  mark _ _ := id
  mark' _ _ := id
  failure := by
    rintro form line _ ⟨hnode, rfl⟩ e
    exact .failure (n := ⟨place, line, form⟩) hnode .own
  calls h := .inl (congrArg Limits.callDepth h.symm)

/-- A machine runs code of the file of the place, and apart from that the place makes no difference to it. -/
theorem Machine.Like.moveTo {m m' : Machine} (h : m.Like (.renumbered S g place) m')
    (hfile : m.file = inner.file) (hfile' : m'.file = inner.file) :
    m.Like (.renumbered S g inner) m' :=
  ⟨h.scopes, h.tables, h.callDepth, h.limits, hfile, hfile'⟩

theorem Stop.Traced.mono {s s' : Stop} (h : s.Traced S g inner s')
    (hsub : ∀ {files o}, Attributed S inner files o → Attributed S place files o) :
    s.Traced S g place s' := by
  cases h with
  | failure hnode hfiles => exact .failure hnode (hsub hfiles)
  | outOfFuel => exact .outOfFuel

theorem Stop.Traced.inFile {s s' : Stop} {name : String} (h : s.Traced S g inner s')
    (hname : inner.file = some name) : (s.inFile name).Traced S g place (s'.inFile name) := by
  cases h with
  | failure hnode hfiles => exact .failure hnode (hfiles.marked hname)
  | outOfFuel => exact .outOfFuel

namespace Run

/-- Running code at `inner` as the code of its file.  Code of no file that is not the outermost is the
body of a function, and code of a file has to call it. -/
theorem Follows.inFile_renumbered {part : Part} {α : Type} {A : α → α → Prop} {x y : Run α}
    (inner : Place) (hinner : inner ≠ ⟨none, false⟩)
    (hcalls : inner.file = none → ∀ name, place.file = some name → Calls S name)
    (hx : Follows (.renumbered S g inner) part α A x y) :
    Follows (.renumbered S g place) part α A (inFile inner.file x) (inFile inner.file y) := by
  intro m m' hm
  obtain ⟨hfile, hfile'⟩ : m.file = place.file ∧ m'.file = place.file := hm.file
  rw [inFile_apply, inFile_apply, hfile, hfile']
  by_cases hsame : place.file = inner.file
  · rw [if_pos hsame, if_pos hsame]
    have hm₀ := hm.moveTo (hfile.trans hsame) (hfile'.trans hsame)
    obtain ⟨hm₁, hend⟩ := (hx m m' hm₀).concur (fun _ _ => id) fun _ _ => id
    obtain ⟨hfile₁, hfile₁'⟩ := hm₁.file
    refine .inr ⟨hm₁.moveTo (hfile₁.trans hsame.symm) (hfile₁'.trans hsame.symm), ?_⟩
    exact hend.mono fun _ _ h => h.mono fun h => h.same hinner hsame
  · rw [if_neg hsame, if_neg hsame]
    have henter : Machine.Like (.renumbered S g inner) { m with file := inner.file }
        { m' with file := inner.file } := ⟨hm.scopes, hm.tables, hm.callDepth, hm.limits, rfl, rfl⟩
    obtain ⟨hm₁, hend⟩ := (hx _ _ henter).concur (fun _ _ => id) fun _ _ => id
    have hleave : Machine.Like (.renumbered S g place)
        { (x { m with file := inner.file }).2 with file := place.file }
        { (y { m' with file := inner.file }).2 with file := place.file } :=
      ⟨hm₁.scopes, hm₁.tables, hm₁.callDepth, hm₁.limits, rfl, rfl⟩
    rcases hname : inner.file with - | name
    · rw [hname] at hleave hend
      exact .inr ⟨hleave, hend.mono fun _ _ h => h.mono fun h => h.unmarked hinner hname (hcalls hname)⟩
    · rw [hname] at hleave hend
      simp only [Action.between_apply, Action.mapError_apply]
      exact .inr ⟨hleave, hend.mapError fun _ _ h => h.inFile hname⟩

section Step

variable {fuel : Nat}
variable (heval : ∀ place e, (∀ n ∈ Expr.nodes place e, S n) →
  Follows (.renumbered S g place) .expression Value (Terms.renumbered S g place).Related (eval fuel e)
    (eval fuel (e.relabel (.ofPlace g) place)))
variable (hexec : ∀ place s, (∀ n ∈ Stmt.nodes place s, S n) →
  Follows (.renumbered S g place) .statement Flow Eq (exec fuel s)
    (exec fuel (s.relabel (.ofPlace g) place)))

include hexec

theorem follows_execAll_renumbered (place : Place) {ss : List Stmt} (hss : ∀ n ∈ nodesAll place ss, S n) :
    Follows (.renumbered S g place) .statement Flow Eq (execAll (exec fuel) ss)
      (execAll (exec fuel) (relabelAll (.ofPlace g) place ss)) :=
  (stepwise_follows (Likeness.lawful_renumbered S g place)).execAll_relabelAll _ _ fun s hs =>
    hexec place s fun n hn => hss n (mem_nodesAll.2 ⟨s, hs, hn⟩)

include heval

/-- One more unit of fuel for expressions. -/
theorem follows_eval_succ_renumbered (place : Place) (e : Expr) (he : ∀ n ∈ e.nodes place, S n) :
    Follows (.renumbered S g place) .expression Value (Terms.renumbered S g place).Related
      (eval (fuel + 1) e) (eval (fuel + 1) (e.relabel (.ofPlace g) place)) := by
  rw [eval, eval]
  have hl := Likeness.lawful_renumbered S g place
  have hR := stepwise_follows hl
  have hnode : e.SameNode (Terms.renumbered S g place).lines (Terms.renumbered S g place).function
      (fun c c' => c ∈ e.parts ∧ c' = c.relabel (.ofPlace g) place) (e.relabel (.ofPlace g) place) := by
    refine e.sameNode_relabel (.ofPlace g) place place ?_ ?_ fun c hc => ⟨hc, rfl⟩
    · exact fun h => ⟨he _ h, rfl⟩
    · rintro line ⟨tag, start, noted, params, ⟨brace, stmts⟩⟩ rfl
      simp only [Expr.nodes, List.forall_mem_cons] at he
      exact ⟨rfl, he.2⟩
  have hparts : ∀ c c', c ∈ e.parts ∧ c' = c.relabel (.ofPlace g) place →
      Follows (.renumbered S g place) .expression Value (Terms.renumbered S g place).Related (eval fuel c)
        (eval fuel c') := by
    rintro c _ ⟨hc, rfl⟩
    exact heval place c fun n hn => he n (Expr.mem_nodes_of_mem_parts hc hn)
  refine hR.evalRule hparts hnode fun hline hcallee hargs => ?_
  refine Follows.inCall_of_depth hl id hline (hR.callBody hparts ?_ hargs hline hcallee)
  -- the body runs at the place of the function, wherever the call stands
  rintro f _ ⟨rfl, hwithin⟩
  rw [f.file_relabel, f.stmts_relabel]
  refine Follows.inFile_renumbered ⟨f.file, true⟩ (by simp) (fun _ name hname => ?_) ?_
  · exact ⟨_, hline.1, rfl, hname⟩
  · exact follows_execAll_renumbered hexec ⟨f.file, true⟩ hwithin

/-- One more unit of fuel for statements. -/
theorem follows_exec_succ_renumbered (place : Place) (s : Stmt) (hs : ∀ n ∈ s.nodes place, S n) :
    Follows (.renumbered S g place) .statement Flow Eq (exec (fuel + 1) s)
      (exec (fuel + 1) (s.relabel (.ofPlace g) place)) := by
  rw [exec, exec]
  have hR := stepwise_follows (Likeness.lawful_renumbered S g place)
  have hnode : s.SameNode (Terms.renumbered S g place).lines
      (fun c c' => c ∈ s.exprs ∧ c' = c.relabel (.ofPlace g) place)
      (fun ss ss' => ss ∈ s.blocks ∧ ss' = relabelAll (.ofPlace g) place ss)
      (fun name p name' p' => (∀ n ∈ nodesAll ⟨some name, false⟩ p, S n) ∧ name' = name ∧
        p' = relabelAll (.ofPlace g) ⟨some name, false⟩ p)
      (s.relabel (.ofPlace g) place) := by
    refine s.sameNode_relabel (.ofPlace g) place place ?_ (fun c hc => ⟨hc, rfl⟩)
      (fun ss hss => ⟨hss, rfl⟩) ?_
    · exact fun h => ⟨hs _ h, rfl⟩
    · rintro line name p rfl
      simp only [Stmt.nodes, List.forall_mem_cons] at hs
      exact ⟨hs.2, rfl, rfl⟩
  refine hR.execRule ?_ hnode ?_ ?_ fun _ hcondition hbody => ?_
  · rintro c _ ⟨hc, rfl⟩
    exact heval place c fun n hn => hs n (Stmt.mem_nodes_of_mem_exprs hc hn)
  · rintro ss _ ⟨hss, rfl⟩
    refine follows_execAll_renumbered hexec place fun n hn => ?_
    exact hs n (Stmt.mem_nodes_of_mem_blocks hss hn)
  · rintro name p _ _ ⟨hp, rfl, rfl⟩
    refine Follows.inFile_renumbered ⟨some _, false⟩ (by simp) (by simp) ?_
    exact follows_execAll_renumbered hexec _ hp
  · exact hR.repeatWhile_same (.of_concur fun _ _ hm => ⟨hm, .stop .outOfFuel⟩) hcondition hbody fuel

end Step

/-- Expressions and statements do the same with other lines. -/
theorem follows_renumbered (fuel : Nat) :
    (∀ place e, (∀ n ∈ Expr.nodes place e, S n) →
      Follows (.renumbered S g place) .expression Value (Terms.renumbered S g place).Related (eval fuel e)
        (eval fuel (e.relabel (.ofPlace g) place))) ∧
    (∀ place s, (∀ n ∈ Stmt.nodes place s, S n) →
      Follows (.renumbered S g place) .statement Flow Eq (exec fuel s)
        (exec fuel (s.relabel (.ofPlace g) place))) := by
  -- at all places at once, since a call goes on at the place of the function
  induction fuel with
  | zero =>
    refine ⟨fun place e _ => ?_, fun place s _ => ?_⟩
    · rw [eval, eval]
      exact .of_concur fun _ _ hm => ⟨hm, .stop .outOfFuel⟩
    · rw [exec, exec]
      exact .of_concur fun _ _ hm => ⟨hm, .stop .outOfFuel⟩
  | succ fuel ih =>
    obtain ⟨heval, hexec⟩ := ih
    exact ⟨follows_eval_succ_renumbered heval hexec, follows_exec_succ_renumbered heval hexec⟩

/-! ### Whole programs -/

/-- Any machine is like itself with other lines, if the code of its functions is in `S`. -/
theorem like_renumbered {m : Machine} (hm : ∀ f, m.Holds (.function f) → f.Within S) :
    m.Like (.renumbered S g ⟨m.file, false⟩) (m.relabel (.ofPlace g) ⟨m.file, false⟩) := by
  have hvalue : ∀ v, m.Holds v → (Terms.renumbered S g ⟨m.file, false⟩).Related v
      (v.relabel (.ofPlace g) ⟨m.file, false⟩) := by
    intro v hv
    cases v with
    | number x => exact .number x
    | text s => exact .text s
    | bool b => exact .bool b
    | null => exact .null
    | function f =>
      obtain ⟨tag, line, file, params, body⟩ := f
      exact .function ⟨rfl, hm _ hv⟩
    | table t => exact .table trivial
  obtain ⟨hscopes, htables⟩ := m.alike_mapValues hvalue fun _ => .table trivial
  exact ⟨hscopes, htables, rfl, rfl, rfl, rfl⟩

/-- A program that fails does so at a node, and with other lines it fails on another line there. -/
theorem execute_renumbered {fuel : Nat} {p : Program} {m : Machine} {e : Error} (g : Renumbering)
    (hp : ∀ n ∈ nodesAll ⟨m.file, false⟩ p, S n) (hm : ∀ f, m.Holds (.function f) → f.Within S)
    (h : (execute fuel p m).1 = .error (.failed e)) :
    ∃ n reason, S n ∧ e.cause = .runtime n.line reason ∧ Attributed S ⟨m.file, false⟩ e.files n.place ∧
      (execute fuel (relabelAll (.ofPlace g) ⟨m.file, false⟩ p)
        (m.relabel (.ofPlace g) ⟨m.file, false⟩)).1 =
          .error (.failed ⟨.runtime (g n.place n.line) reason, e.files⟩) := by
  have hR := stepwise_follows (Likeness.lawful_renumbered S g ⟨m.file, false⟩)
  have hrun : Follows (.renumbered S g ⟨m.file, false⟩) .statement Unit (fun _ _ => True) (execute fuel p)
      (execute fuel (relabelAll (.ofPlace g) ⟨m.file, false⟩ p)) :=
    hR.bind (follows_execAll_renumbered (follows_renumbered fuel).2 _ hp) fun _ _ _ => hR.pure trivial
  obtain ⟨-, hend⟩ := (hrun m _ (like_renumbered hm)).concur (fun _ _ => id) fun _ _ => id
  rw [h] at hend
  generalize (execute fuel (relabelAll (.ofPlace g) ⟨m.file, false⟩ p)
    (m.relabel (.ofPlace g) ⟨m.file, false⟩)).1 = r at hend ⊢
  cases hend with
  | stop hs =>
    cases hs with
    | failure hnode hfiles => exact ⟨_, _, hnode, rfl, hfiles, rfl⟩

/-- The error `e` of a program comes from code at `o`: whatever numbers the lines get, it stays the same
but for its line, and that gets the number that the line has at `o`. -/
def ComesFrom (fuel : Nat) (p : Program) (m : Machine) (e : Error) (o : Place) : Prop :=
  ∃ line reason, e.cause = .runtime line reason ∧ ∀ g : Renumbering,
    (execute fuel (relabelAll (.ofPlace g) ⟨m.file, false⟩ p)
      (m.relabel (.ofPlace g) ⟨m.file, false⟩)).1 =
        .error (.failed ⟨.runtime (g o line) reason, e.files⟩)

theorem ComesFrom.unique {fuel : Nat} {p : Program} {m : Machine} {e : Error} {o o' : Place}
    (h : ComesFrom fuel p m e o) (h' : ComesFrom fuel p m e o') : o = o' := by
  obtain ⟨line, reason, hcause, hall⟩ := h
  obtain ⟨line', reason', hcause', hall'⟩ := h'
  -- give the lines of `o` another number than all others
  let g : Renumbering := fun place _ => if place = o then 0 else 1
  have hsame := (hall g).symm.trans (hall' g)
  simp only [Except.error.injEq, Stop.failed.injEq, Error.mk.injEq, Cause.runtime.injEq, and_true]
    at hsame
  have hnode : (if o = o then 0 else 1) = if o' = o then 0 else 1 := hsame.1
  by_contra hne
  rw [if_pos rfl, if_neg fun heq => hne heq.symm] at hnode
  cases hnode

/-- **Every error of a run is an error at run time and comes from one place**, which its files name as
`Attributed` says.  It is on the line of a node of that place. -/
theorem exists_comesFrom {fuel : Nat} {p : Program} {m : Machine} {e : Error}
    (hp : ∀ n ∈ nodesAll ⟨m.file, false⟩ p, S n)
    (hm : ∀ f, m.Holds (.function f) → f.Within S)
    (h : (execute fuel p m).1 = .error (.failed e)) :
    ∃ n reason, S n ∧ e.cause = .runtime n.line reason ∧
      Attributed S ⟨m.file, false⟩ e.files n.place ∧ ComesFrom fuel p m e n.place := by
  -- the node is found with a renumbering that tells all nodes apart
  obtain ⟨g, hg⟩ := Renumbering.exists_injective
  obtain ⟨n, reason, hnode, hcause, hfiles, hrun⟩ := execute_renumbered g hp hm h
  refine ⟨n, reason, hnode, hcause, hfiles, n.line, reason, hcause, fun g' => ?_⟩
  obtain ⟨f, hf⟩ := Renumbering.exists_comp hg g'
  rw [← relabelAll_ofLine_ofPlace hf, ← Machine.relabel_ofLine_ofPlace hf, execute_ofLine, hrun,
    ← hf n.place n.line]
  rfl

end Run

end Renumbered

end TableScript
