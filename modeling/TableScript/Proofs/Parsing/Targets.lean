import TableScript.Program.Source
import TableScript.Proofs.Parsing.Tracking

/-!
# What a parser asks for

A parser asks its setting for files, and for nothing else.  Which files these can be is seen from the tokens
that are left: only names that stand behind the word `Get` (`Program.targets`), and the more tokens are
taken, the fewer they get.  So two settings that agree on the targets give the same program
(`program_congr`), and if there is no program, then the parser failed by itself or a target could not be
fetched (`program_error`).
-/

namespace TableScript

/-- Errors about a file that cannot be imported. -/
def GrammarError.isImport : GrammarError → Bool
  | .importNotFound _ | .importUnreadable _ _ | .cyclicImport _ => true
  | _ => false

theorem GrammarError.isImport_of_isLocal {g : GrammarError} (h : g.isLocal = true) :
    g.isImport = false := by
  cases g with
  | importNotFound | importUnreadable | cyclicImport => cases h
  | _ => rfl

namespace Program

/-! ### Names behind `Get` -/

theorem targets_subset_cons (t : Located) (ts : List Located) : targets ts ⊆ targets (t :: ts) := by
  intro file hfile
  unfold targets
  split
  · next heq =>
    cases heq
    exact List.mem_cons_of_mem _ hfile
  · next heq =>
    cases heq
    exact hfile
  · next heq => cases heq

/-- A name behind `Get` is a string of the text. -/
theorem exists_text_of_mem_targets {ts : List Located} {file : String} (h : file ∈ targets ts) :
    ∃ line, ⟨.text file, line⟩ ∈ ts := by
  fun_induction targets ts with
  | case1 l name line rest ih =>
    rcases List.mem_cons.1 h with rfl | h
    · exact ⟨line, by simp⟩
    · obtain ⟨line', hmem⟩ := ih h
      exact ⟨line', List.mem_cons_of_mem _ hmem⟩
  | case2 t rest _ ih =>
    obtain ⟨line, hmem⟩ := ih h
    exact ⟨line, List.mem_cons_of_mem _ hmem⟩
  | case3 => cases h

theorem targets_cons_of_ne {t : Located} (ht : t.token ≠ .keyword .getWord) (ts : List Located) :
    targets (t :: ts) = targets ts := by
  rw [targets.eq_2]
  rintro l file line rest rfl
  exact absurd rfl ht

theorem targets_append {t : Located} (ht : ∀ s, t.token ≠ .text s) (ts us : List Located) :
    targets (ts ++ t :: us) = targets ts ++ targets (t :: us) := by
  fun_induction targets ts with
  | case1 l file line rest ih =>
    show file :: targets (⟨.text file, line⟩ :: rest ++ t :: us) = _
    rw [ih]
    rfl
  | case2 t' rest hrest ih =>
    show targets (t' :: (rest ++ t :: us)) = _
    rw [← ih, targets.eq_2]
    -- the token behind `t'` is of `ts`, or it is `t`
    intro l file line us' hget htext
    cases rest with
    | nil => exact ht file (congrArg Located.token (List.cons.inj htext).1)
    | cons r rest => exact hrest l file line rest hget (by rw [(List.cons.inj htext).1])
  | case3 => rfl

theorem targets_append_cons {t : Located} (ht : ∀ s, t.token ≠ .text s)
    (ht' : t.token ≠ .keyword .getWord) (ts us : List Located) :
    targets (ts ++ t :: us) = targets ts ++ targets us := by
  rw [targets_append ht, targets_cons_of_ne ht']

end Program

/-! ### What a parser asks for -/

namespace Parser

open Program

variable {c : Cursor} {st st' : Setting}

theorem targets_advance (c : Cursor) : targets c.advance.2.tokens ⊆ targets c.tokens := by
  obtain ⟨here, later⟩ := c
  unfold Cursor.advance
  split
  · exact fun _ h => h
  · split
    · exact fun _ h => h
    · next t ts hlater =>
      obtain rfl : later = t :: ts := hlater
      exact targets_subset_cons here (t :: ts)

/-- An import as one equation. -/
theorem get_eq (st : Setting) (c : Cursor) :
    get st c = (match c.advance.2.current with
      | .text file => (st.fetch c.line file).map (Stmt.get c.line file)
      | found => .error (.grammar c.line (.invalidImportTarget found)), c.advance.2.advance.2) := by
  rw [get, advance_bind, advance_bind, Cursor.token_here]
  generalize c.advance.2.current = tok
  cases tok with
  | text file =>
    rw [Cursor.line_here]
    show (Action.ofExcept (st.fetch c.line file) >>= fun program =>
        pure (Stmt.get c.line file program) : Parser Stmt) c.advance.2.advance.2 =
      ((st.fetch c.line file).map (Stmt.get c.line file), c.advance.2.advance.2)
    rcases st.fetch c.line file with e | p
    · rfl
    · rfl
  | _ => rfl

/-- The string behind the word `Get` is a target. -/
theorem mem_targets_of_get {file : String} (hget : c.current = .keyword .getWord)
    (htext : c.advance.2.current = .text file) : file ∈ targets c.tokens := by
  obtain ⟨⟨token, line⟩, later⟩ := c
  obtain rfl : token = .keyword .getWord := hget
  cases later with
  | nil => cases htext
  | cons t ts =>
    obtain ⟨token, line'⟩ := t
    obtain rfl : token = .text file := htext
    exact List.mem_cons_self

/-- An import fails by itself, or it is what fetching a target gives. -/
theorem getHere_cases (c : Cursor) :
    (∃ e c', (c' = c ∨ c' = c.advance.2.advance.2) ∧ e.isImport = false ∧
      ∀ st, getHere st c = (.error (.grammar c.line e), c')) ∨
    ∃ file ∈ targets c.tokens, ∀ st,
      getHere st c = ((st.fetch c.line file).map (Stmt.get c.line file), c.advance.2.advance.2) := by
  by_cases hword : c.current = .keyword .getWord
  · by_cases htext : ∃ file, c.advance.2.current = .text file
    · obtain ⟨file, htext⟩ := htext
      refine .inr ⟨file, mem_targets_of_get hword htext, fun st => ?_⟩
      rw [getHere_of_eq hword, get_eq, htext]
    · refine .inl ⟨.invalidImportTarget c.advance.2.current, _, .inr rfl, rfl, fun st => ?_⟩
      rw [getHere_of_eq hword, get_eq]
      generalize c.advance.2.current = tok at htext ⊢
      cases tok with
      | text file => exact absurd ⟨file, rfl⟩ htext
      | _ => rfl
  · exact .inl ⟨_, c, .inl rfl, rfl, fun st => getHere_of_ne hword⟩

section

variable (c)

/-- The tokens that are left ask for nothing that `c` does not ask for. -/
def AsksNoMore (d : Cursor) : Prop := targets d.tokens ⊆ targets c.tokens

variable {c}

theorem AsksNoMore.advance {d : Cursor} (h : AsksNoMore c d) : AsksNoMore c d.advance.2 :=
  List.Subset.trans (targets_advance d) h

/-- A cursor that asks for no more than `c` corresponds to itself. -/
theorem correspondence_asksNoMore (c : Cursor) :
    Correspondence (fun line => line) (fun d d' : Cursor => d' = d ∧ AsksNoMore c d) fun _ => False :=
  correspondence_within fun _ hd => hd.advance

end

/-- A parser fails by itself, or because a target could not be fetched. -/
theorem program_error {e : Error} (h : (program st c).1 = .error e) :
    (∃ line g, e = .grammar line g ∧ g.isImport = false) ∨
      ∃ file ∈ targets c.tokens, ∃ line, st.fetch line file = .error e := by
  let F : Error → Prop := fun e => (∃ line g, e = .grammar line g ∧ g.isImport = false) ∨
    ∃ file ∈ targets c.tokens, ∃ line, st.fetch line file = .error e
  have hR : Parametric (fun line => line) (FailsWith (AsksNoMore c) F) :=
    parametric_failsWith (fun _ => AsksNoMore.advance) fun line g hg =>
      .inl ⟨line, g, rfl, g.isImport_of_isLocal hg⟩
  have hget {g : Stmt → Stmt} : FailsWith (AsksNoMore c) F g (getHere st) (getHere st) := by
    intro d hd
    obtain ⟨g, d', hd', hg, hfail⟩ | ⟨file, hfile, hfetched⟩ := getHere_cases d
    · rw [hfail]
      refine ⟨?_, fun e' he' => ?_⟩
      · rcases hd' with rfl | rfl
        · exact hd
        · exact hd.advance.advance
      · cases he'
        exact .inl ⟨_, g, rfl, hg⟩
    · rw [hfetched]
      refine ⟨hd.advance.advance, fun e' he' => ?_⟩
      rcases hfetch : st.fetch d.line file with e₁ | p
      · rw [hfetch] at he'
        cases he'
        exact .inr ⟨file, hd hfile, d.line, hfetch⟩
      · rw [hfetch] at he'
        cases he'
  have hdeep {α : Type} {g : α → α} : FailsWith (AsksNoMore c) F g
      (failHere fun _ => .nestingTooDeep st.limits.nesting)
      (failHere fun _ => .nestingTooDeep st.limits.nesting) :=
    .failHere fun line _ => .inl ⟨line, _, rfl, rfl⟩
  have hprogram : FailsWith (AsksNoMore c) F (Program.mapLines fun line => line) (program st)
      (program st) := hR.program rfl hget (Nat.zero_add _).symm ⟨hdeep, hdeep⟩
  exact (hprogram c (List.Subset.refl _)).2 e h

end Parser

/-! ### Results that follow one another -/

/-- The second result is the first, unless that is an error in `E`. -/
def SameUnless {α : Type} (E : Error → Prop) (r r' : Except Error α) : Prop :=
  r' = r ∨ ∃ e, r = .error e ∧ E e

namespace SameUnless

variable {α β : Type} {E : Error → Prop} {r r' : Except Error α}

theorem refl (r : Except Error α) : SameUnless E r r := .inl rfl

theorem map (h : SameUnless E r r') (f : α → β) : SameUnless E (r.map f) (r'.map f) := by
  rcases h with rfl | ⟨e, rfl, he⟩
  · exact refl _
  · exact .inr ⟨e, rfl, he⟩

theorem mapError (h : SameUnless E r r') {f : Error → Error} (hf : ∀ e, E e → E (f e)) :
    SameUnless E (r.mapError f) (r'.mapError f) := by
  rcases h with rfl | ⟨e, rfl, he⟩
  · exact refl _
  · exact .inr ⟨f e, rfl, hf e he⟩

end SameUnless

namespace Parser

section

variable {E : Error → Prop} {st st' : Setting} {c : Cursor} (hfile : st'.file = st.file)
variable (hfetch : ∀ file ∈ Program.targets c.tokens, ∀ line,
  SameUnless E (st.fetch line file) (st'.fetch line file))

include hfetch

/-- Imports that are asked for are read in the same way, up to errors in `E`. -/
theorem tracks_getHere_within :
    Tracks (correspondence_asksNoMore c) E
      (Stmt.relabel (.ofText (fun line => line) fun file => file) true) (getHere st)
      (getHere st') := by
  refine (tracks_within_iff Stmt.relabel_ofText_id).2 fun d hd => ?_
  obtain ⟨e, d', rfl | rfl, -, hfail⟩ | ⟨file, hfile, hfetched⟩ := getHere_cases d
  · rw [hfail, hfail]
    exact .inr ⟨rfl, hd⟩
  · rw [hfail, hfail]
    exact .inr ⟨rfl, hd.advance.advance⟩
  · rw [hfetched, hfetched]
    rcases (hfetch file (hd hfile) d.line).map (Stmt.get d.line file) with hsame | herror
    · exact .inr ⟨by rw [hsame], hd.advance.advance⟩
    · exact .inl herror

include hfile

/-- Two settings with related levels parse tokens in the same way up to errors in `E`. -/
theorem program_of_levels {k : Nat} (hlimit : st'.limits.nesting = k + st.limits.nesting)
    (hlast : InnerRelated (fun line => line) (fun file => file)
      (Tracks (correspondence_asksNoMore c) E) (levels st 0) (levels st' k)) :
    (∃ e, (program st c).1 = .error e ∧ E e) ∨ program st' c = program st c := by
  have hprogram := (parametric_tracks _ E).program hfile (tracks_getHere_within hfetch) hlimit hlast
  have hself (p : Program) : relabelAll (.ofText (fun line => line) fun file => file) true p = p :=
    p.mapLines_id
  exact ((tracks_within_iff hself).1 hprogram c (List.Subset.refl _)).imp_right And.left

end

/-- Settings that differ only in imports that are not asked for give the same programs. -/
theorem program_congr {st st' : Setting} {c : Cursor} (hlimits : st.limits = st'.limits)
    (hfile : st.file = st'.file)
    (hfetch : ∀ file ∈ Program.targets c.tokens, ∀ line, st.fetch line file = st'.fetch line file) :
    program st' c = program st c := by
  have hnesting : st'.limits.nesting = st.limits.nesting := congrArg Limits.nesting hlimits.symm
  have hdeep {α : Type} {g : α → α} : Tracks (correspondence_asksNoMore c) (fun _ => False) g
      (failHere fun _ => .nestingTooDeep st.limits.nesting)
      (failHere fun _ => .nestingTooDeep st'.limits.nesting) := by
    rw [hnesting]
    exact tracks_failHere _
  have hsame : ∀ file ∈ Program.targets c.tokens, ∀ line,
      SameUnless (fun _ => False) (st.fetch line file) (st'.fetch line file) :=
    fun file hmem line => .inl (hfetch file hmem line).symm
  rcases program_of_levels hfile.symm hsame (hnesting.trans (Nat.zero_add _).symm) ⟨hdeep, hdeep⟩ with
    ⟨e, -, hfalse⟩ | hprogram
  · exact hfalse.elim
  · exact hprogram

/-- Two settings parse tokens in the same way up to errors in `E`, if the imports that are asked for are
fetched so and nesting is too deep in the first only with such an error. -/
theorem program_of_le {E : Error → Prop} (st st' : Setting) {c : Cursor}
    (hle : st.limits.nesting ≤ st'.limits.nesting) (hfile : st'.file = st.file)
    (hdeep : ∀ line, E (.grammar line (.nestingTooDeep st.limits.nesting)))
    (hfetch : ∀ file ∈ Program.targets c.tokens, ∀ line,
      SameUnless E (st.fetch line file) (st'.fetch line file)) :
    SameUnless E (program st c).1 (program st' c).1 := by
  have hlast {α : Type} {g : α → α} (y : Parser α) : Tracks (correspondence_asksNoMore c) E g
      (failHere fun _ => .nestingTooDeep st.limits.nesting) y := by
    refine ⟨fun hexit _ => hexit, fun {d _ _ _} _ hr => .inr (.inl ⟨_, ?_, hdeep d.line⟩)⟩
    exact (congrArg Prod.fst hr).symm
  -- the second setting has as many levels more as its limit is larger
  have hlimit : st'.limits.nesting = st'.limits.nesting - st.limits.nesting + st.limits.nesting := by
    omega
  rcases program_of_levels hfile hfetch hlimit ⟨hlast _, hlast _⟩ with herror | hprogram
  · exact .inr herror
  · exact .inl (by rw [hprogram])

end Parser

end TableScript
