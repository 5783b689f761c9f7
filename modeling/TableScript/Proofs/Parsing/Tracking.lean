import TableScript.Proofs.Parsing.Parametric
import TableScript.Proofs.Parsing.Soundness

/-!
# Parsing related tokens

The grammar looks at one token at a time.  So if the cursors of two texts show the same token at each
step, the two are parsed in the same way, wherever their lines and whatever the tokens behind.  A
`Correspondence` is a relation between states with this property, up to a function on lines, which
lasts until the first of them comes to an exit.

`Tracks h E g x y` says of two parsers that on corresponding states the second one does what the first
one does, with its value changed by `g`, unless the first one comes to an exit or fails with an error in
`E`.  It is one of the relations that the grammar keeps (`parametric_tracks`), so the programs of two
settings track one another if they have the same levels and fetch the same, but for errors on the line
of the import (`tracks_program`).

There are three correspondences here.  The same tokens on other lines have no exit, so the whole program
is tracked (`program_mapLines`).  A cursor corresponds to itself, which is of use where the settings
differ: the file of a setting goes into the tree and nowhere else (`program_file`).  Tokens with others
behind them have their end as the exit; a statement with its semicolon does not come to look at it, so
the statements of a text are also read when another text follows (`program_extended`).
-/

namespace TableScript

/-- What an import yields does not depend on its line, but for errors on that line. -/
def Setting.Natural (st : Setting) (f : Nat → Nat) : Prop :=
  ∀ line file, st.fetch (f line) file = (st.fetch line file).mapError (Error.mapLine f)

/-- Two settings with the same levels that fetch the same, but for errors on the line of the import. -/
structure Setting.Agrees (f : Nat → Nat) (st st' : Setting) : Prop where
  nesting : st'.limits.nesting = st.limits.nesting
  fetch : ∀ line file, st'.fetch (f line) file = (st.fetch line file).mapError (Error.mapLine f)

theorem Setting.Natural.agrees {st : Setting} {f : Nat → Nat} (h : st.Natural f) : st.Agrees f st :=
  ⟨rfl, h⟩

/-- Imports on lines that stay as they are. -/
theorem Setting.natural_id (st : Setting) : st.Natural fun line => line := by
  intro line file
  rcases st.fetch line file with e | program
  · exact congrArg Except.error e.mapLine_id.symm
  · rfl

/-- A cursor on tokens with other lines. -/
def Cursor.mapLines (f : Nat → Nat) (c : Cursor) : Cursor :=
  ⟨c.here.mapLine f, c.later.map (Located.mapLine f)⟩

namespace Parser

open HasCursor

variable {σ τ : Type} [HasCursor σ] [HasCursor τ] {α β : Type}

/-- States that show the same token, on a line changed by `f`, and that do so again a step later,
unless the first is at an exit then.  An exit is not left again. -/
structure Correspondence (f : Nat → Nat) (C : σ → τ → Prop) (exit : σ → Prop) : Prop where
  current : ∀ {s t}, C s t → (cursor t).current = (cursor s).current
  line : ∀ {s t}, C s t → (cursor t).line = f (cursor s).line
  advance : ∀ {s t}, C s t → C (withCursor s (cursor s).advance.2) (withCursor t (cursor t).advance.2) ∨
    exit (withCursor s (cursor s).advance.2)
  stays : ∀ {s}, exit s → exit (withCursor s (cursor s).advance.2)
  remaining : ∃ k k', ∀ {s t}, C s t → (cursor t).remaining + k = (cursor s).remaining + k'

section

variable {f : Nat → Nat} {C : σ → τ → Prop} {exit : σ → Prop}

/-- On corresponding states, `y` does what `x` does, with a value changed by `g`, unless `x` comes to an
exit or fails with an error in `E`. -/
structure Tracks (_h : Correspondence f C exit) (E : Error → Prop) (g : α → α) (x : ParserOn σ α)
    (y : ParserOn τ α) : Prop where
  stays : ∀ {s r s₁}, exit s → x s = (r, s₁) → exit s₁
  same : ∀ {s t r s₁}, C s t → x s = (r, s₁) →
    exit s₁ ∨ (∃ e, r = .error e ∧ E e) ∨ ∃ t₁, y t = (mapResult f g r, t₁) ∧ C s₁ t₁

variable {h : Correspondence f C exit} {E : Error → Prop} {g : α → α} {g' : β → β}

/-! ### Sequencing and repetition -/

/-- A step that leaves the state alone. -/
theorem tracks_of_same {x : ParserOn σ α} {y : ParserOn τ α}
    (hx : ∀ s t, C s t → y t = (mapResult f g (x s).1, t)) (hstays : ∀ s, (x s).2 = s) :
    Tracks h E g x y where
  stays {s} r s₁ hexit hs := by
    obtain rfl : s₁ = s := (congrArg Prod.snd hs).symm.trans (hstays s)
    exact hexit
  same {s} t r s₁ hC hs := by
    obtain rfl : s₁ = s := (congrArg Prod.snd hs).symm.trans (hstays s)
    have hvalue := hx s₁ t hC
    rw [hs] at hvalue
    exact .inr (.inr ⟨t, hvalue, hC⟩)

theorem tracks_pure {a a' : α} (ha : a' = g a) : Tracks h E g (pure a) (pure a') :=
  tracks_of_same (fun _ _ _ => by rw [ha]; rfl) fun _ => rfl

theorem tracks_failAt (line : Nat) (e : GrammarError) :
    Tracks h E g (failAt line e) (failAt (f line) e) :=
  tracks_of_same (fun _ _ _ => rfl) fun _ => rfl

theorem tracks_failHere (e : Token → GrammarError) : Tracks h E g (failHere e) (failHere e) :=
  tracks_of_same (fun s t hC => by
    rw [failHere, failHere, h.line hC, h.current hC]
    rfl) fun _ => rfl

theorem Tracks.bind {x : ParserOn σ α} {y : ParserOn τ α} {k : α → ParserOn σ β}
    {k' : α → ParserOn τ β} (hx : Tracks h E g x y) (hk : ∀ a, Tracks h E g' (k a) (k' (g a))) :
    Tracks h E g' (x >>= k) (y >>= k') where
  stays {s} r s₂ hexit hs := by
    rcases hxs : x s with ⟨e | a, s₁⟩
    · cases (Action.bind_of_error hxs).symm.trans hs
      exact hx.stays hexit hxs
    · exact (hk a).stays (hx.stays hexit hxs) ((Action.bind_of_ok hxs).symm.trans hs)
  same {s} t r s₂ hC hs := by
    rcases hxs : x s with ⟨e | a, s₁⟩
    · cases (Action.bind_of_error hxs).symm.trans hs
      rcases hx.same hC hxs with hexit | ⟨e', he, hE⟩ | ⟨t₁, ht, hC₁⟩
      · exact .inl hexit
      · cases he
        exact .inr (.inl ⟨e, rfl, hE⟩)
      · exact .inr (.inr ⟨t₁, Action.bind_of_error ht, hC₁⟩)
    · have hrest := (Action.bind_of_ok hxs).symm.trans hs
      rcases hx.same hC hxs with hexit | ⟨e, he, -⟩ | ⟨t₁, ht, hC₁⟩
      · exact .inl ((hk a).stays hexit hrest)
      · cases he
      · have hbind : (y >>= k') t = k' (g a) t₁ := Action.bind_of_ok ht
        rw [hbind]
        exact (hk a).same hC₁ hrest

theorem Tracks.iterate {turn : α → ParserOn σ (Turn α β)} {turn' : α → ParserOn τ (Turn α β)}
    (hturn : ∀ a, Tracks h E (Turn.map g g') (turn a) (turn' (g a))) (a : α) :
    Tracks h E g' (iterate turn a) (iterate turn' (g a)) where
  stays hexit hs := iterate_keeps (fun a => (hturn a).stays) hexit hs
  same {s} t r s₂ hC hs := by
    obtain ⟨k, k', hremaining⟩ := h.remaining
    -- along the turns of the first, which the second takes too until an exit or a failure
    fun_induction Parser.iterate turn a s generalizing t with
    | case1 a s e s₁ hfirst =>
      cases hs
      rcases (hturn a).same hC hfirst with hexit | ⟨e', he, hE⟩ | ⟨t₁, ht, hC₁⟩
      · exact .inl hexit
      · cases he
        exact .inr (.inl ⟨e, rfl, hE⟩)
      · exact .inr (.inr ⟨t₁, iterate_error ht, hC₁⟩)
    | case2 a s b s₁ hfirst =>
      cases hs
      rcases (hturn a).same hC hfirst with hexit | ⟨e, he, -⟩ | ⟨t₁, ht, hC₁⟩
      · exact .inl hexit
      · cases he
      · exact .inr (.inr ⟨t₁, iterate_finish ht, hC₁⟩)
    | case3 a s a₁ s₁ hfirst hlt ih =>
      rcases (hturn a).same hC hfirst with hexit | ⟨e, he, -⟩ | ⟨t₁, ht, hC₁⟩
      · exact .inl (iterate_keeps (fun a => (hturn a).stays) hexit hs)
      · cases he
      · have hlt' : (cursor t₁).remaining < (cursor t).remaining := by
          have hbefore := hremaining hC
          have hafter := hremaining hC₁
          omega
        rw [iterate_again ht hlt']
        exact ih t₁ hC₁ hs
    | case4 a s a₁ s₁ hfirst hle =>
      cases hs
      rcases (hturn a).same hC hfirst with hexit | ⟨e, he, -⟩ | ⟨t₁, ht, hC₁⟩
      · exact .inl hexit
      · cases he
      · have hle' : ¬ (cursor t₁).remaining < (cursor t).remaining := by
          have hbefore := hremaining hC
          have hafter := hremaining hC₁
          omega
        refine .inr (.inr ⟨t₁, ?_, hC₁⟩)
        rw [iterate_refused ht hle', Parser.failHere, h.line hC₁, h.current hC₁]
        rfl

/-- Where there is neither an exit nor an excuse, the second always does what the first does. -/
theorem Tracks.exists_eq {h : Correspondence f C fun _ => False} {x : ParserOn σ α}
    {y : ParserOn τ α} (hx : Tracks h (fun _ => False) g x y) {s : σ} {t : τ} (hC : C s t) :
    ∃ t₁, y t = (mapResult f g (x s).1, t₁) ∧ C (x s).2 t₁ := by
  rcases hx.same hC rfl with hexit | ⟨e, -, hE⟩ | hsame
  · exact hexit.elim
  · exact hE.elim
  · exact hsame

/-! ### The grammar -/

theorem tracks_current : Tracks h E (fun tok => tok) current current :=
  tracks_of_same (fun s t hC => by
    show (Except.ok (cursor t).current, t) = _
    rw [h.current hC]
    rfl) fun _ => rfl

theorem tracks_line : Tracks h E f line line :=
  tracks_of_same (fun s t hC => by
    show (Except.ok (cursor t).line, t) = _
    rw [h.line hC]
    rfl) fun _ => rfl

theorem tracks_advance : Tracks h E (Located.mapLine f) advance advance where
  stays hexit hs := by
    cases hs
    exact h.stays hexit
  same {s} t r s₁ hC hs := by
    obtain ⟨rfl, rfl⟩ := Prod.mk.inj hs
    refine (h.advance hC).symm.imp_right fun hC₁ => .inr ⟨_, ?_, hC₁⟩
    have hhere : (cursor t).here = (cursor s).here.mapLine f := by
      show (⟨(cursor t).current, (cursor t).line⟩ : Located) = ⟨(cursor s).current, f (cursor s).line⟩
      rw [h.current hC, h.line hC]
    show (Except.ok (cursor t).advance.1, withCursor t (cursor t).advance.2) =
      (Except.ok ((cursor s).advance.1.mapLine f), withCursor t (cursor t).advance.2)
    rw [Cursor.advance_fst, Cursor.advance_fst, hhere]

theorem parametric_tracks (h : Correspondence f C exit) (E : Error → Prop) :
    Parametric f (Tracks h E) where
  pure := tracks_pure
  bind := Tracks.bind
  current := tracks_current
  line := tracks_line
  advance := tracks_advance
  fail line e _ := tracks_failAt line e
  iterate := Tracks.iterate

section Settings

variable {st st' : Setting} {noted : Option String → Option String} (hst : st.Agrees f st')

include hst

theorem tracks_getHere :
    Tracks h E (Stmt.relabel (.ofText f noted) true) (getHere st) (getHere st') := by
  refine tracks_current.bind fun tok => ?_
  split
  · refine tracks_advance.bind fun word => tracks_advance.bind fun target => ?_
    obtain ⟨token, line⟩ := target
    cases token with
    | text file =>
      have hprogram : Tracks h E (fun program => program) (Action.ofExcept (st.fetch word.line file))
          (Action.ofExcept (st'.fetch (f word.line) file)) := by
        rw [hst.fetch]
        rcases st.fetch word.line file with e | program
        · exact tracks_of_same (fun _ _ _ => rfl) fun _ => rfl
        · exact tracks_pure rfl
      refine hprogram.bind fun program => tracks_pure ?_
      exact congrArg (Stmt.get (f word.line) file) (relabelAll_ofText_false f noted program).symm
    | _ => exact tracks_failAt _ _
  · exact tracks_failHere _

theorem tracks_tooDeep :
    Tracks h E g (failHere fun _ => .nestingTooDeep st.limits.nesting)
      (failHere fun _ => .nestingTooDeep st'.limits.nesting) := by
  rw [hst.nesting]
  exact tracks_failHere _

end Settings

end

section Settings

variable {f : Nat → Nat} {C : Cursor → Cursor → Prop} {exit : Cursor → Prop}
variable {E : Error → Prop} {noted : Option String → Option String} {st st' : Setting}
variable (h : Correspondence f C exit) (hfile : st'.file = noted st.file) (hst : st.Agrees f st')

include hfile hst

theorem tracks_levels (n : Nat) :
    InnerRelated f noted (Tracks h E) (levels st n) (levels st' n) := by
  have hlast : InnerRelated f noted (Tracks h E) (levels st 0) (levels st' 0) :=
    ⟨tracks_tooDeep hst, tracks_tooDeep hst⟩
  have hlevels := (parametric_tracks h E).levels hfile (tracks_getHere hst) hlast n
  rwa [Nat.zero_add] at hlevels

theorem tracks_program :
    Tracks h E (relabelAll (.ofText f noted) true) (program st) (program st') := by
  have hinner : InnerRelated f noted (Tracks h E) (outermost st) (outermost st') := by
    rw [outermost, outermost, hst.nesting]
    exact tracks_levels h hfile hst _
  exact (parametric_tracks h E).programBody hinner (tracks_getHere hst)

end Settings

/-! ### The same tokens on other lines -/

theorem advance_mapLines (f : Nat → Nat) (c : Cursor) :
    (c.mapLines f).advance.2 = c.advance.2.mapLines f := by
  obtain ⟨⟨token, line⟩, later⟩ := c
  cases hend : token.isEnd with
  | true => simp [Cursor.advance, Cursor.mapLines, Cursor.atEnd, Cursor.current, Located.mapLine, hend]
  | false =>
    cases later with
    | nil => simp [Cursor.advance, Cursor.mapLines]
    | cons t ts =>
      simp [Cursor.advance, Cursor.mapLines, Cursor.atEnd, Cursor.current, Located.mapLine, hend]

theorem correspondence_mapLines (f : Nat → Nat) :
    Correspondence f (fun c c' : Cursor => c' = c.mapLines f) fun _ => False where
  current := by
    rintro c _ rfl
    rfl
  line := by
    rintro c _ rfl
    rfl
  advance := by
    rintro c _ rfl
    exact .inl (advance_mapLines f c)
  stays := id
  remaining := by
    refine ⟨0, 0, ?_⟩
    rintro c _ rfl
    show (c.mapLines f).remaining + 0 = c.remaining + 0
    simp [Cursor.remaining, Cursor.mapLines]

/-- Tokens on other lines are parsed to the tree with other lines, or to the error on another line. -/
theorem program_mapLines {st : Setting} {f : Nat → Nat} (hfetch : st.Natural f) (c : Cursor) :
    (program st (c.mapLines f)).1 = mapResult f (Program.mapLines f) (program st c).1 := by
  have htracks : Tracks (correspondence_mapLines f) (fun _ => False) (Program.mapLines f)
      (program st) (program st) := tracks_program _ rfl hfetch.agrees
  obtain ⟨c₁, hc, -⟩ := htracks.exists_eq (s := c) rfl
  rw [hc]

/-! ### The same tokens in another setting -/

section Within

variable {Q : Cursor → Prop}

/-- A cursor in `Q` corresponds to itself. -/
theorem correspondence_within (hQ : ∀ c : Cursor, Q c → Q c.advance.2) :
    Correspondence (fun line => line) (fun c c' : Cursor => c' = c ∧ Q c) fun _ => False where
  current := fun ⟨h, _⟩ => congrArg Cursor.current h
  line := fun ⟨h, _⟩ => congrArg Cursor.line h
  advance := fun ⟨h, hc⟩ => .inl ⟨congrArg (fun c => (Cursor.advance c).2) h, hQ _ hc⟩
  stays := id
  remaining := ⟨0, 0, fun ⟨h, _⟩ => congrArg Cursor.remaining h⟩

variable {E : Error → Prop} {g : α → α}

theorem mapResult_eq_self (hg : ∀ a, g a = a) (r : Except Error α) :
    mapResult (fun line => line) g r = r := by
  cases r with
  | error e => rw [mapResult, e.mapLine_id]
  | ok a => rw [mapResult, hg]

/-- Tracking from cursors in `Q` to themselves is doing the same on them. -/
theorem tracks_within_iff
    {h : Correspondence (fun line => line) (fun c c' : Cursor => c' = c ∧ Q c) fun _ => False}
    (hg : ∀ a, g a = a) {x y : Parser α} :
    Tracks h E g x y ↔
      ∀ c, Q c → (∃ e, (x c).1 = .error e ∧ E e) ∨ (y c = x c ∧ Q (x c).2) := by
  constructor
  · intro hx c hc
    rcases hx.same ⟨rfl, hc⟩ rfl with hexit | hE | ⟨c₁, hy, rfl, hc₁⟩
    · exact hexit.elim
    · exact .inl hE
    · rw [mapResult_eq_self hg] at hy
      exact .inr ⟨hy, hc₁⟩
  · refine fun hx => ⟨fun hexit _ => hexit, ?_⟩
    rintro _ c r c₁ ⟨rfl, hc⟩ hr
    have hsame := hx c hc
    rw [hr] at hsame
    rcases hsame with hE | ⟨hy, hc₁⟩
    · exact .inr (.inl hE)
    · exact .inr (.inr ⟨c₁, by rw [hy, mapResult_eq_self hg], rfl, hc₁⟩)

end Within

/-- The file that a setting is about goes into the tree and nowhere else. -/
theorem program_file (st : Setting) (file : Option String) (c : Cursor) :
    (program { st with file } c).1 = (program st c).1.map (Program.noting file) := by
  have hst : st.Agrees (fun line => line) { st with file } := ⟨rfl, st.natural_id⟩
  have htracks : Tracks (correspondence_within (Q := fun _ => True) fun _ => id) (fun _ => False)
      (Program.noting file) (program st) (program { st with file }) := tracks_program _ rfl hst
  obtain ⟨c₁, hc, -⟩ := htracks.exists_eq (s := c) ⟨rfl, trivial⟩
  rw [hc]
  rcases (program st c).1 with e | p
  · rw [mapResult, e.mapLine_id]
    rfl
  · rfl

/-! ### Tokens with others behind them -/

/-- The tokens of the first cursor, up to their end, lead the second one to `d`. -/
structure Extended (d c c' : Cursor) : Prop where
  exists_moves : ∃ ts line, (∀ t ∈ ts, t.token.isEnd = false) ∧
    c.Moves ts ⟨⟨.endOfInput, line⟩, []⟩ ∧ c'.Moves ts d

namespace Extended

variable {d c c' : Cursor}

/-- At the end of the first, the second is where it is led. -/
theorem eq_of_atEnd (hC : Extended d c c') (hend : c.atEnd = true) : c' = d := by
  obtain ⟨ts, line, hts, hc, hc'⟩ := hC
  cases ts with
  | nil => exact hc'.eq_of_nil
  | cons t ts =>
    rw [Cursor.atEnd, hc.current, hts t List.mem_cons_self] at hend
    cases hend

/-- Before it, both show the same token and can move on. -/
theorem step (hC : Extended d c c') (hend : c.atEnd = false) :
    c'.here = c.here ∧ Extended d c.advance.2 c'.advance.2 := by
  obtain ⟨ts, line, hts, hc, hc'⟩ := hC
  cases ts with
  | nil =>
    rw [hc.eq_of_nil] at hend
    cases hend
  | cons t ts =>
    obtain ⟨ht, hts⟩ := List.forall_mem_cons.1 hts
    exact ⟨by rw [hc.here, hc'.here], ts, line, hts, hc.advance ht, hc'.advance ht⟩

theorem remaining (hC : Extended d c c') : c'.remaining = c.remaining + d.remaining := by
  obtain ⟨ts, line, -, hc, hc'⟩ := hC
  rw [hc.remaining, hc'.remaining]
  rfl

end Extended

theorem correspondence_extended (d : Cursor) :
    Correspondence (fun line => line) (fun c c' : Cursor => Extended d c c' ∧ c.atEnd = false)
      fun c => c.atEnd = true where
  current := fun ⟨hC, hend⟩ => congrArg Located.token (hC.step hend).1
  line := fun ⟨hC, hend⟩ => congrArg Located.line (hC.step hend).1
  advance {c _} := fun ⟨hC, hend⟩ => by
    cases hnext : c.advance.2.atEnd with
    | true => exact .inr rfl
    | false => exact .inl ⟨(hC.step hend).2, rfl⟩
  stays {c} hend := by
    show c.advance.2.atEnd = true
    rw [Cursor.advance_of_atEnd hend]
    exact hend
  remaining := ⟨0, d.remaining, fun hC => hC.1.remaining⟩

variable {st : Setting} {d c c' c₁ : Cursor}

/-- A statement with its semicolon is read in the same way whatever follows. -/
theorem closedStatement_extended (hC : Extended d c c') (hend : c.atEnd = false) {s : Stmt}
    (hc : closedStatement st (outermost st) c = (.ok s, c₁)) :
    ∃ c₁', closedStatement st (outermost st) c' = (.ok s, c₁') ∧ Extended d c₁ c₁' := by
  have hst := st.natural_id.agrees
  have hinner : InnerRelated (fun line => line) (fun file => file)
      (Tracks (correspondence_extended d) fun _ => False) (outermost st) (outermost st) :=
    tracks_levels _ rfl hst _
  have hstatement := (parametric_tracks _ _).statement hinner (tracks_getHere hst)
  obtain ⟨s', c₂, hs, hclosing⟩ := Action.bind_eq_ok_iff.1 hc
  obtain ⟨_, c₃, hexpect, hpure⟩ := Action.bind_eq_ok_iff.1 hclosing
  cases hpure
  -- the statement ended before a semicolon, so not at the end of the input
  have hsemicolon : c₂.current = .symbol .semicolon := by
    refine Classical.byContradiction fun hne => ?_
    rw [expect_of_ne hne] at hexpect
    cases hexpect
  rw [expect_of_eq hsemicolon] at hexpect
  cases hexpect
  rcases hstatement.same ⟨hC, hend⟩ hs with hexit | ⟨e, he, -⟩ | ⟨c₂', hs', hC₂, hend₂⟩
  · rw [Cursor.atEnd, hsemicolon] at hexit
    cases hexit
  · cases he
  · obtain ⟨hhere, hC₃⟩ := hC₂.step hend₂
    have hsemicolon' : c₂'.current = .symbol .semicolon := by
      rw [← hsemicolon]
      exact congrArg Located.token hhere
    refine ⟨c₂'.advance.2, ?_, hC₃⟩
    rw [mapResult, s.relabel_ofText_id] at hs'
    rw [closedStatement, Action.bind_of_ok hs', expect_bind_of_eq _ hsemicolon']
    rfl

/-- Before the end of the input, a turn reads a statement. -/
theorem programTurn_of_atEnd_eq_false (stmts : List Stmt) (hend : c.atEnd = false) :
    programTurn st (outermost st) stmts c =
      (closedStatement st (outermost st) >>= fun s => pure (.again (s :: stmts))) c := by
  rw [programTurn, atEnd_bind, hend]
  rfl

/-- The statements of a text are read in the same way when another text follows. -/
theorem iterate_programTurn_extended (hC : Extended d c c') {stmts : List Stmt} {p : Program}
    (hc : iterate (programTurn st (outermost st)) stmts c = (.ok p, c₁)) :
    iterate (programTurn st (outermost st)) stmts c' =
      iterate (programTurn st (outermost st)) p.reverse d := by
  fun_induction iterate (programTurn st (outermost st)) stmts c generalizing c' with
  | case1 stmts c e c₂ hturn => cases hc
  | case2 stmts c p' c₂ hturn =>
    cases hc
    obtain ⟨hr, hend, rfl⟩ | ⟨s, hr, -⟩ := programTurn_ok hturn
    · cases hr
      rw [hC.eq_of_atEnd hend, List.reverse_reverse]
    · cases hr
  | case3 stmts c stmts' c₂ hturn hlt ih =>
    cases hend : c.atEnd with
    | true =>
      rw [programTurn, atEnd_bind, hend] at hturn
      cases hturn
    | false =>
      obtain ⟨hr, -⟩ | ⟨s, hr, hs⟩ := programTurn_ok hturn
      · cases hr
      · cases hr
        obtain ⟨c₂', hs', hC₂⟩ := closedStatement_extended hC hend hs
        have hend' : c'.atEnd = false := by
          rw [Cursor.atEnd, Cursor.current, (hC.step hend).1]
          exact hend
        have hturn' : programTurn st (outermost st) stmts c' = (.ok (.again (s :: stmts)), c₂') := by
          rw [programTurn_of_atEnd_eq_false stmts hend', Action.bind_of_ok hs']
          rfl
        have hlt' : c₂'.remaining < c'.remaining := by
          have hfewer : c₂.remaining < c.remaining := hlt
          rw [hC.remaining, hC₂.remaining]
          omega
        rw [iterate_again hturn' hlt']
        exact ih hC₂ hc
  | case4 stmts c stmts' c₂ hturn hle => cases hc

/-- Statements that were read before stand before those that are read. -/
theorem iterate_programTurn_eq (st : Setting) (stmts : List Stmt) (c : Cursor) :
    (iterate (programTurn st (outermost st)) stmts c).1 = (program st c).1.map (stmts.reverse ++ ·) := by
  let h := correspondence_within (Q := fun _ => True) fun _ => id
  have hturn (read : List Stmt) : Tracks h (fun _ => False)
      (Turn.map (· ++ stmts) (stmts.reverse ++ ·)) (programTurn st (outermost st) read)
      (programTurn st (outermost st) (read ++ stmts)) := by
    refine (parametric_tracks h _).atEnd.bind fun ended => ?_
    split
    · refine tracks_pure ?_
      rw [Turn.map, List.reverse_append]
    · have hself : Tracks h (fun _ => False) (fun s => s) (closedStatement st (outermost st))
          (closedStatement st (outermost st)) :=
        (tracks_within_iff fun _ => rfl).2 fun c _ => .inr ⟨rfl, trivial⟩
      exact hself.bind fun s => tracks_pure rfl
  obtain ⟨c₁, hc, -⟩ := (Tracks.iterate hturn []).exists_eq (s := c) ⟨rfl, trivial⟩
  show (iterate (programTurn st (outermost st)) ([] ++ stmts) c).1 = _
  rw [hc]
  show mapResult _ _ (program st c).1 = _
  rcases (program st c).1 with e | p
  · rw [mapResult, e.mapLine_id]
    rfl
  · rfl

/-- A text that is a program may stand before any other: its statements come first, and what comes of
the two is what comes of the other. -/
theorem program_extended (hC : Extended d c c') {p : Program} (hc : (program st c).1 = .ok p) :
    (program st c').1 = (program st d).1.map (p ++ ·) := by
  have hread : iterate (programTurn st (outermost st)) [] c = (.ok p, (program st c).2) := Prod.ext hc rfl
  show (iterate (programTurn st (outermost st)) [] c').1 = _
  rw [iterate_programTurn_extended hC hread, iterate_programTurn_eq, List.reverse_reverse]

end Parser

end TableScript
