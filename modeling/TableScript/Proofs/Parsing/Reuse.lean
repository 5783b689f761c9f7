import TableScript.Proofs.Parsing.Descent
import TableScript.Proofs.Parsing.Soundness
import TableScript.Proofs.Parsing.Targets

/-!
# A parser can be used again

Expressions, statements and programs can be asked for one after another of the same parser, and some of
these calls may fail, at any depth and for any reason.  Between calls the parser is at rest: its depth is
zero, its files are those it started with, and its cursor is somewhere ahead of where it started
(`AtRest`).  One call keeps this (`AtRest.call`), so every sequence of calls does (`AtRest.after`).

Depth and files are kept since a parser that counts its depth does what one with levels does
(`descend_eq_parse`).  That the cursor does not go back, on success or failure, is the walk over the grammar
of `Parametric`.  A parser at rest differs from a new one in nothing but the tokens before its cursor,
so a call answers as a new parser would on the tokens that are left (`reusable_after_calls`).
-/

namespace TableScript

/-! ### Cursors ahead of one another -/

namespace Cursor

/-- Moving on from `c` leads to `c'`. -/
def Ahead (c c' : Cursor) : Prop := ∃ used, c.Moves used c'

variable {c c' c'' : Cursor}

theorem Ahead.refl (c : Cursor) : Ahead c c := ⟨[], .refl c⟩

theorem Ahead.trans (h : Ahead c c') (h' : Ahead c' c'') : Ahead c c'' := by
  obtain ⟨used, hmove⟩ := h
  obtain ⟨used', hmove'⟩ := h'
  exact ⟨used ++ used', hmove.trans hmove'⟩

theorem Ahead.closed (h : Ahead c c') (hc : c.Closed) : c'.Closed := by
  obtain ⟨used, hmove⟩ := h
  exact hmove.closed hc

/-- Taking a token moves on, or stays at the end. -/
theorem Ahead.advance (hc : c.Closed) (h : Ahead c c') : Ahead c c'.advance.2 := by
  apply h.trans
  cases hend : c'.current.isEnd with
  | true =>
    rw [advance_of_atEnd hend]
    exact .refl c'
  | false => exact ⟨_, c'.moves_advance (h.closed hc) hend⟩

/-- The tokens of a closed cursor make up the same cursor. -/
theorem ofList_tokens (hc : c.Closed) : ofList c.tokens = c := by
  obtain ⟨here, later⟩ := c
  obtain ⟨line, hlast⟩ := hc
  have hend : later.getLastD here = ⟨.endOfInput, line⟩ := by
    rw [tokens, List.getLast?_cons] at hlast
    rw [List.getLastD_eq_getLast?]
    exact Option.some.inj hlast
  rw [tokens, ofList, closing, hend]
  show (⟨here, later ++ []⟩ : Cursor) = ⟨here, later⟩
  rw [List.append_nil]

end Cursor

/-- Only lists and statements may be nothing at all. -/
theorem Derives.ne_nil {file : Option String} {fetch : Nat → String → Except Error Program}
    {k : Category} {a : k.Tree} {ts : List Located} (h : Derives file fetch k ts a)
    (hk : k.mayBeEmpty = false) : ts ≠ [] := by
  obtain ⟨t, rest, rfl, -⟩ := h.exists_cons hk
  exact List.cons_ne_nil t rest

/-! ### Calls -/

/-- What can be asked of a parser. -/
inductive Call where
  | expression | statement | program

namespace Call

/-- What the answer to a call is. -/
@[reducible] def Tree : Call → Type
  | .expression => Expr
  | .statement => Stmt
  | .program => Program

/-- A call in a setting. -/
def parse (st : Setting) : (call : Call) → Parser call.Tree
  | .expression => (Parser.outermost st).expression
  | .statement => Parser.statement st (Parser.outermost st)
  | .program => Parser.program st

/-- A call on a parser that counts its depth. -/
def descend (load : Loader) (limits : Limits) : (call : Call) → Descending call.Tree
  | .expression => (Descending.outermost load limits).expression
  | .statement => Descending.statement load limits
  | .program => Descending.program load limits

/-- What a call that succeeds has done with the tokens `used`, up to `c'`: a program goes to the end, and
the others take a token at least. -/
def Done : Call → List Located → Cursor → Prop
  | .expression, used, _ | .statement, used, _ => used ≠ []
  | .program, _, c' => c'.atEnd = true

variable {st : Setting} {c c' : Cursor}

/-- At depth zero, a call on a parser that counts its depth does what the call in the setting does, and
it keeps depth and files. -/
theorem descend_eq_parse (load : Loader) (limits : Limits) (stack : List String) (call : Call)
    (c : Cursor) :
    call.descend load limits ⟨c, 0, stack⟩ =
      ((call.parse (Program.setting load limits stack) c).1,
        ⟨(call.parse (Program.setting load limits stack) c).2, 0, stack⟩) := by
  cases call with
  | expression =>
    exact (Descending.mirrors_outermost stack load limits).expression.apply Expr.relabel_ofText_id c
  | statement =>
    exact (Descending.mirrors_statement stack load limits).apply Stmt.relabel_ofText_id c
  | program => exact (Descending.mirrors_program stack load limits).apply Program.mapLines_id c

/-- A call moves on, whether it succeeds or fails. -/
theorem ahead_parse (st : Setting) (hc : c.Closed) (call : Call) :
    c.Ahead (call.parse st c).2 := by
  have hR : Parser.Parametric (fun line => line) (Parser.FailsWith c.Ahead fun _ => True) :=
    Parser.parametric_failsWith (fun _ => Cursor.Ahead.advance hc) fun _ _ _ => trivial
  have hget {g : Stmt → Stmt} : Parser.FailsWith c.Ahead (fun _ => True) g (Parser.getHere st)
      (Parser.getHere st) := by
    intro d hd
    refine ⟨?_, fun _ _ => trivial⟩
    -- an import stays where it is or takes two tokens
    obtain ⟨e, d', rfl | rfl, -, hfail⟩ | ⟨file, -, hfetched⟩ := Parser.getHere_cases d
    · rw [hfail]
      exact hd
    · rw [hfail]
      exact (hd.advance hc).advance hc
    · rw [hfetched]
      exact (hd.advance hc).advance hc
  have hdeep {α : Type} {g : α → α} : Parser.FailsWith c.Ahead (fun _ => True) g
      (Parser.failHere fun _ => .nestingTooDeep st.limits.nesting)
      (Parser.failHere fun _ => .nestingTooDeep st.limits.nesting) :=
    .failHere fun _ _ => trivial
  have hlast : Parser.InnerRelated (fun line => line) (fun file => file)
      (Parser.FailsWith c.Ahead fun _ => True) (Parser.levels st 0) (Parser.levels st 0) :=
    ⟨hdeep, hdeep⟩
  have hlevels := hR.levels rfl hget hlast st.limits.nesting
  cases call with
  | expression => exact (hlevels.expression c (.refl c)).1
  | statement => exact (hR.statement hlevels hget c (.refl c)).1
  | program => exact (hR.programBody hlevels hget c (.refl c)).1

/-- A call that succeeds has done its part. -/
theorem exists_done_of_ok (hc : c.Closed) (call : Call) {a : call.Tree}
    (h : call.parse st c = (.ok a, c')) : ∃ used, c.Moves used c' ∧ call.Done used c' := by
  cases call with
  | expression =>
    obtain ⟨used, hmove, hused⟩ := (Parser.sound_levels st _).expression c a c' hc h
    exact ⟨used, hmove, hused.ne_nil rfl⟩
  | statement =>
    obtain ⟨used, hmove, hused⟩ := Parser.sound_statement (Parser.sound_levels st _) c a c' hc h
    exact ⟨used, hmove, hused.ne_nil rfl⟩
  | program =>
    obtain ⟨used, hmove, -, hend⟩ := Parser.program_ok hc h
    exact ⟨used, hmove, hend⟩

/-- Both at once: a call moves over some tokens, and if it succeeds it has done its part. -/
theorem exists_moves_parse (st : Setting) (hc : c.Closed) (call : Call) :
    ∃ used, c.Moves used (call.parse st c).2 ∧
      ∀ a, (call.parse st c).1 = .ok a → call.Done used (call.parse st c).2 := by
  rcases hrun : call.parse st c with ⟨e | a, c'⟩
  · obtain ⟨used, hmove⟩ := ahead_parse st hc call
    rw [hrun] at hmove
    exact ⟨used, hmove, fun a h => (by cases h)⟩
  · obtain ⟨used, hmove, hdone⟩ := exists_done_of_ok hc call hrun
    exact ⟨used, hmove, fun _ _ => hdone⟩

end Call

/-! ### Between calls -/

namespace Descent

/-- A new parser on a list of tokens, while the files of `stack` are being imported. -/
def start (stack : List String) (ts : List Located) : Descent := ⟨Cursor.ofList ts, 0, stack⟩

/-- The parser after some calls, whatever they answered. -/
def after (load : Loader) (limits : Limits) (s : Descent) (calls : List Call) : Descent :=
  calls.foldl (fun s call => (call.descend load limits s).2) s

/-- No level has been entered that was not left, the files are those of the start, and the cursor is
ahead of where it started. -/
structure AtRest (stack : List String) (c : Cursor) (s : Descent) : Prop where
  depth : s.depth = 0
  stack : s.stack = stack
  ahead : c.Ahead s.cursor

variable {load : Loader} {limits : Limits} {stack : List String} {c : Cursor} {s : Descent}

/-- At rest there is nothing but the cursor. -/
theorem AtRest.eq (h : AtRest stack c s) : s = ⟨s.cursor, 0, stack⟩ := by
  obtain ⟨cursor, depth, files⟩ := s
  obtain ⟨rfl, rfl, -⟩ := h
  rfl

/-- A call at rest is the call of the running parser. -/
theorem AtRest.descend_eq (h : AtRest stack c s) (call : Call) :
    call.descend load limits s =
      ((call.parse (Program.setting load limits stack) s.cursor).1,
        ⟨(call.parse (Program.setting load limits stack) s.cursor).2, 0, stack⟩) := by
  have hcall := Call.descend_eq_parse load limits stack call s.cursor
  rwa [← h.eq] at hcall

/-- A call leaves a parser at rest. -/
theorem AtRest.call (hc : c.Closed) (h : AtRest stack c s) (call : Call) :
    AtRest stack c (call.descend load limits s).2 := by
  rw [h.descend_eq call]
  exact ⟨rfl, rfl, h.ahead.trans (Call.ahead_parse _ (h.ahead.closed hc) call)⟩

/-- So do any number of calls. -/
theorem AtRest.after (hc : c.Closed) (h : AtRest stack c s) (calls : List Call) :
    AtRest stack c (s.after load limits calls) := by
  induction calls generalizing s with
  | nil => exact h
  | cons call calls ih => exact ih (h.call hc call)

theorem atRest_start (stack : List String) (ts : List Located) :
    AtRest stack (Cursor.ofList ts) (start stack ts) := ⟨rfl, rfl, .refl _⟩

/-- **A parser can be used again after any outcome.**  After any calls, whatever they answered, the depth
is zero, the files are those of the start and the cursor has not gone back.  The next call moves on, an
expression or a statement that is read takes a token at least, and a program that is read ends at the end
of the input.  It is the call of a new parser with the same files on the tokens that are left, and the
answer is that of the grammar with all its levels. -/
theorem reusable_after_calls (load : Loader) (limits : Limits) (stack : List String)
    (ts : List Located) (calls : List Call) :
    let s := (start stack ts).after load limits calls
    s.depth = 0 ∧ s.stack = stack ∧ (∃ used, (Cursor.ofList ts).Moves used s.cursor) ∧
      ∀ call : Call,
        (∃ used, s.cursor.Moves used (call.descend load limits s).2.cursor ∧
          ∀ a, (call.descend load limits s).1 = .ok a →
            call.Done used (call.descend load limits s).2.cursor) ∧
        call.descend load limits s = call.descend load limits (start stack s.cursor.tokens) ∧
        call.descend load limits s =
          ((call.parse (Program.setting load limits stack) s.cursor).1,
            ⟨(call.parse (Program.setting load limits stack) s.cursor).2, 0, stack⟩) := by
  intro s
  have hclosed := Cursor.closed_ofList ts
  have hrest : AtRest stack (Cursor.ofList ts) s := (atRest_start stack ts).after hclosed calls
  have hc : s.cursor.Closed := hrest.ahead.closed hclosed
  refine ⟨hrest.depth, hrest.stack, hrest.ahead, fun call => ⟨?_, ?_, hrest.descend_eq call⟩⟩
  · rw [hrest.descend_eq call]
    exact Call.exists_moves_parse _ hc call
  · -- the tokens that are left are closed, so a new parser stands where this one does
    have hfresh : start stack s.cursor.tokens = s := by
      rw [start, Cursor.ofList_tokens hc]
      exact hrest.eq.symm
    rw [hfresh]

/-- The tokens of `((a Get "lib" x;` on three lines. -/
def brokenTokens : List Located :=
  [⟨.symbol .leftParen, 1⟩, ⟨.symbol .leftParen, 1⟩, ⟨.name "a", 1⟩, ⟨.keyword .getWord, 2⟩,
    ⟨.text "lib", 2⟩, ⟨.name "x", 3⟩, ⟨.symbol .semicolon, 3⟩]

/-- An expression fails two levels deep, a statement fails on an import that is not found, and what is
left is read as a program. -/
theorem reusable_after_calls_brokenTokens :
    ((start ["main"] brokenTokens).after (Loader.ofList []) { nesting := 3 }
      [.expression, .statement]).depth = 0 ∧
    ∃ s, Call.program.descend (Loader.ofList []) { nesting := 3 }
        ((start ["main"] brokenTokens).after (Loader.ofList []) { nesting := 3 }
          [.expression, .statement]) = (.ok [.expr 3 (.var 3 "x")], s) ∧ s.cursor.atEnd = true := by
  have hok : Call.program.descend (Loader.ofList []) { nesting := 3 }
      ((start ["main"] brokenTokens).after (Loader.ofList []) { nesting := 3 }
        [.expression, .statement]) =
      (.ok [.expr 3 (.var 3 "x")], ⟨⟨⟨.endOfInput, 3⟩, []⟩, 0, ["main"]⟩) := by
    with_unfolding_all rfl
  obtain ⟨hdepth, -, -, hcalls⟩ := reusable_after_calls (Loader.ofList []) { nesting := 3 }
    ["main"] brokenTokens [.expression, .statement]
  obtain ⟨⟨used, -, hdone⟩, -, -⟩ := hcalls .program
  rw [hok] at hdone
  exact ⟨hdepth, _, hok, hdone _ rfl⟩

end Descent

end TableScript
