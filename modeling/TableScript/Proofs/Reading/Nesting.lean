import TableScript.Proofs.Reading.Embedding

/-!
# The limit on nesting bounds the tree

A parser refuses to go deeper than its limit.  That bounds the tree it builds: `Stmt.nesting` counts the
blocks and expressions inside one another, and no statement of a program that was read counts more
levels than the limit allows (`nesting_le_of_ofSource`).  Parentheses leave no node, so a text may use
more levels than its tree shows, but not fewer.  An import starts again at its first level.

An expression is one level, and its operands are on the same level; what stands in brackets behind or
between them is one further in.  So an expression counts one more than `Expr.inside`, which is how deep
the brackets in it go.

`Yields P x` says of a parser that its results are in `P`.  With parsers of the next level whose results
count at most `n`, each parser of a level yields what goes `n` further in at most; the induction is on
the levels.
-/

namespace TableScript

/-! ### How deep a tree is nested -/

mutual

/-- How many levels an expression has below its own. -/
def Expr.inside : Expr → Nat
  | .number _ _ => 0
  | .text _ _ => 0
  | .bool _ _ => 0
  | .var _ _ => 0
  | .function _ (.mk _ _ _ _ (.mk _ stmts)) => nestingAll stmts + 1
  | .unary _ _ e => e.inside
  | .arith _ _ l r => max l.inside r.inside
  | .compare _ _ l r => max l.inside r.inside
  | .call _ callee args => max callee.inside (nestingArgs args)
  | .index _ base key => max base.inside (key.inside + 1)
  | .table _ entries => nestingEntries entries

/-- The levels of the deepest of some expressions. -/
def nestingArgs : List Expr → Nat
  | [] => 0
  | e :: es => max (e.inside + 1) (nestingArgs es)

/-- The levels of the deepest of the keys and values of some table entries. -/
def nestingEntries : List (Expr × Expr) → Nat
  | [] => 0
  | (k, v) :: es => max (max (k.inside + 1) (v.inside + 1)) (nestingEntries es)

/-- The levels of a statement: those of its expressions and blocks.  An import has none. -/
def Stmt.nesting : Stmt → Nat
  | .assign _ _ target value => max (target.inside + 1) (value.inside + 1)
  | .block (.mk _ stmts) => nestingAll stmts + 1
  | .get _ _ _ => 0
  | .cond _ e (.mk _ yes) none => max (e.inside + 1) (nestingAll yes + 1)
  | .cond _ e (.mk _ yes) (some (.mk _ no)) =>
    max (e.inside + 1) (max (nestingAll yes + 1) (nestingAll no + 1))
  | .loop _ e (.mk _ stmts) => max (e.inside + 1) (nestingAll stmts + 1)
  | .ret _ e => e.inside + 1
  | .expr _ e => e.inside + 1

/-- The levels of the deepest of some statements. -/
def nestingAll : List Stmt → Nat
  | [] => 0
  | s :: ss => max s.nesting (nestingAll ss)

end

/-- The levels of an expression: its own, and those below. -/
def Expr.nesting (e : Expr) : Nat := e.inside + 1

/-- The levels of a block: its own, and those of its statements. -/
def Block.nesting : Block → Nat
  | .mk _ stmts => nestingAll stmts + 1

section

variable {n : Nat}

theorem nestingArgs_le_iff {es : List Expr} : nestingArgs es ≤ n ↔ ∀ e ∈ es, e.nesting ≤ n := by
  induction es with
  | nil => simp [nestingArgs]
  | cons e es ih => simp [nestingArgs, Expr.nesting, ih]

theorem nestingEntries_le_iff {es : List (Expr × Expr)} :
    nestingEntries es ≤ n ↔ ∀ e ∈ es, e.1.nesting ≤ n ∧ e.2.nesting ≤ n := by
  induction es with
  | nil => simp [nestingEntries]
  | cons e es ih =>
    obtain ⟨k, v⟩ := e
    rw [nestingEntries, Nat.max_le, ih, List.forall_mem_cons, Nat.max_le]
    rfl

theorem nestingAll_le_iff {ss : List Stmt} : nestingAll ss ≤ n ↔ ∀ s ∈ ss, s.nesting ≤ n := by
  induction ss with
  | nil => simp [nestingAll]
  | cons s ss ih => simp [nestingAll, ih]

end

namespace Parser

variable {α β : Type}

/-! ### What a parser yields -/

/-- Wherever the parser succeeds, its result is in `P`. -/
def Yields (P : α → Prop) (x : Parser α) : Prop := ∀ c a c', x c = (.ok a, c') → P a

/-- What a turn carries on is in `P`, what it ends with in `Q`. -/
def Turn.All (P : α → Prop) (Q : β → Prop) : Turn α β → Prop
  | .again a => P a
  | .finish b => Q b

section

variable {P : α → Prop} {Q : β → Prop}

theorem yields_any (x : Parser α) : Yields (fun _ => True) x := fun _ _ _ _ => trivial

theorem yields_pure {a : α} (ha : P a) : Yields P (pure a) := by
  intro c b c' h
  cases h
  exact ha

theorem yields_failHere (e : Token → GrammarError) : Yields P (failHere e) := by
  intro c a c' h
  cases h

theorem Yields.bind {x : Parser α} {f : α → Parser β} (hx : Yields P x)
    (hf : ∀ a, P a → Yields Q (f a)) : Yields Q (x >>= f) := by
  intro c b c' h
  obtain ⟨a, c₁, hfirst, hrest⟩ := Action.bind_eq_ok_iff.1 h
  exact hf a (hx c a c₁ hfirst) c₁ b c' hrest

/-- A step whose value does not matter. -/
theorem Yields.after {x : Parser α} {f : α → Parser β} (hf : ∀ a, Yields Q (f a)) :
    Yields Q (x >>= f) :=
  (yields_any x).bind fun a _ => hf a

theorem Yields.iterate {turn : α → Parser (Turn α β)} (hturn : ∀ a, P a → Yields (Turn.All P Q) (turn a))
    {a : α} (ha : P a) : Yields Q (iterate turn a) := by
  intro c b c' h
  obtain ⟨a₁, c₁, ha₁, hlast⟩ := iterate_ok (P := fun a _ => P a)
    (fun a₁ c₁ a₂ c₂ ha₁ hagain => hturn a₁ ha₁ c₁ _ c₂ hagain) ha h
  exact hturn a₁ ha₁ c₁ _ c' hlast

theorem yields_commaList {item : Parser α} (hitem : Yields P item) (closing : Symbol) :
    Yields (fun as => ∀ a ∈ as, P a) (commaList item closing) := by
  refine .after fun found => ?_
  cases found with
  | true => exact yields_pure (by simp)
  | false =>
    refine .iterate (P := fun as => ∀ a ∈ as, P a) (fun items hitems => ?_) (by simp)
    refine hitem.bind fun a ha => .after fun comma => ?_
    have hall : ∀ b ∈ a :: items, P b := List.forall_mem_cons.2 ⟨ha, hitems⟩
    split
    · refine .after fun next => ?_
      split
      · exact yields_failHere _
      · exact yields_pure hall
    · refine .after fun found => ?_
      split
      · refine yields_pure fun b hb => hall b ?_
        exact List.mem_reverse.1 hb
      · exact yields_failHere _

end

/-! ### The parsers of a level -/

/-- The results of the parsers of a level have at most `n` levels. -/
structure InnerNested (n : Nat) (inner : Inner) : Prop where
  expression : Yields (fun e => e.nesting ≤ n) inner.expression
  block : Yields (fun b => b.nesting ≤ n) inner.block

section Levels

variable {n : Nat} {st : Setting} {inner : Inner} (hinner : InnerNested n inner)

include hinner

theorem inside_function : Yields (fun e => e.inside ≤ n) (function st inner) := by
  refine .after fun word => .after fun _ => .after fun params => hinner.block.bind fun body hbody => ?_
  obtain ⟨brace, stmts⟩ := body
  exact yields_pure hbody

theorem nesting_entry :
    Yields (fun e => e.1.nesting ≤ n ∧ e.2.nesting ≤ n) (entry inner) := by
  refine hinner.expression.bind fun key hkey => .after fun _ => ?_
  exact hinner.expression.bind fun value hvalue => yields_pure ⟨hkey, hvalue⟩

theorem inside_table : Yields (fun e => e.inside ≤ n) (table inner) := by
  refine .after fun bracket => (yields_commaList (nesting_entry hinner) _).bind fun entries hentries => ?_
  exact yields_pure (nestingEntries_le_iff.2 hentries)

/-- An expression in parentheses has a level to spare. -/
theorem inside_parenthesized : Yields (fun e => e.inside ≤ n) (parenthesized inner) := by
  refine .after fun _ => hinner.expression.bind fun e he => .after fun _ => yields_pure ?_
  exact Nat.le_of_succ_le he

omit hinner in
theorem inside_literal {make : Nat → Expr} (hmake : ∀ line, (make line).inside = 0) :
    Yields (fun e => e.inside ≤ n) (literal make) :=
  .after fun token => yields_pure (by rw [hmake]; exact Nat.zero_le n)

theorem inside_primary : Yields (fun e => e.inside ≤ n) (primary st inner) := by
  refine .after fun tok => ?_
  split
  · exact inside_literal fun _ => by rw [Expr.inside]
  · exact inside_literal fun _ => by rw [Expr.inside]
  · exact inside_literal fun _ => by rw [Expr.inside]
  · exact inside_literal fun _ => by rw [Expr.inside]
  · exact inside_function hinner
  · exact inside_table hinner
  · exact inside_parenthesized hinner
  · exact yields_failHere _
  · exact yields_failHere _

theorem inside_postfixed : Yields (fun e => e.inside ≤ n) (postfixed st inner) := by
  refine (inside_primary hinner).bind fun e he =>
    .iterate (P := fun e => e.inside ≤ n) (fun e he => .after fun tok => ?_) he
  split
  · refine .after fun paren => (yields_commaList hinner.expression _).bind fun args hargs => ?_
    refine yields_pure (Nat.max_le.2 ⟨he, nestingArgs_le_iff.2 hargs⟩)
  · refine .after fun bracket => hinner.expression.bind fun key hkey => .after fun _ => ?_
    exact yields_pure (Nat.max_le.2 ⟨he, hkey⟩)
  · exact yields_pure he

theorem inside_signed : Yields (fun e => e.inside ≤ n) (signed st inner) := by
  refine .after fun tok => ?_
  rcases sign? tok with - | op
  · exact inside_postfixed hinner
  · exact .after fun sign => (inside_postfixed hinner).bind fun e he => yields_pure he

omit hinner in
theorem inside_chain {op? : Token → Option ArithOp} {operand : Parser Expr}
    (hoperand : Yields (fun e => e.inside ≤ n) operand) :
    Yields (fun e => e.inside ≤ n) (chain op? operand) := by
  refine hoperand.bind fun left hleft =>
    .iterate (P := fun e => e.inside ≤ n) (fun left hleft => .after fun tok => ?_) hleft
  rcases op? tok with - | op
  · exact yields_pure hleft
  · refine .after fun mark => hoperand.bind fun right hright => ?_
    exact yields_pure (Nat.max_le.2 ⟨hleft, hright⟩)

theorem inside_comparison : Yields (fun e => e.inside ≤ n) (comparison st inner) := by
  have hsum : Yields (fun e => e.inside ≤ n) (sum st inner) :=
    inside_chain (inside_chain (inside_signed hinner))
  refine hsum.bind fun left hleft => .after fun tok => ?_
  rcases compareOp? tok with - | op
  · exact yields_pure hleft
  · refine .after fun mark => hsum.bind fun right hright => .after fun next => ?_
    split
    · exact yields_failHere _
    · exact yields_pure (Nat.max_le.2 ⟨hleft, hright⟩)

/-! ### Statements -/

theorem nesting_condition : Yields (fun e => e.nesting ≤ n) (condition inner) :=
  .after fun _ => hinner.expression.bind fun _ he => .after fun _ => yields_pure he

theorem nesting_cond : Yields (fun s => s.nesting ≤ n) (cond inner) := by
  refine .after fun word => (nesting_condition hinner).bind fun e he => ?_
  refine hinner.block.bind fun yes hyes => .after fun found => ?_
  obtain ⟨brace, stmts⟩ := yes
  split
  · refine hinner.block.bind fun no hno => ?_
    obtain ⟨brace', stmts'⟩ := no
    exact yields_pure (Nat.max_le.2 ⟨he, Nat.max_le.2 ⟨hyes, hno⟩⟩)
  · exact yields_pure (Nat.max_le.2 ⟨he, hyes⟩)

theorem nesting_loop : Yields (fun s => s.nesting ≤ n) (loop inner) := by
  refine .after fun word => (nesting_condition hinner).bind fun e he => ?_
  refine hinner.block.bind fun body hbody => ?_
  obtain ⟨brace, stmts⟩ := body
  exact yields_pure (Nat.max_le.2 ⟨he, hbody⟩)

theorem nesting_simple : Yields (fun s => s.nesting ≤ n) (simple inner) := by
  refine .after fun start => hinner.expression.bind fun e he => .after fun found => ?_
  have hassign (how : Assignment) : Yields (fun s : Stmt => s.nesting ≤ n)
      (inner.expression >>= fun value => pure (.assign start how e value)) :=
    hinner.expression.bind fun value hvalue => yields_pure (Nat.max_le.2 ⟨he, hvalue⟩)
  split
  · exact hassign .define
  · refine .after fun found => ?_
    split
    · exact hassign .reassign
    · exact yields_pure he

omit hinner in
theorem nesting_get : Yields (fun s => s.nesting ≤ n) (get st) := by
  refine .after fun word => .after fun target => ?_
  split
  · exact .after fun program => yields_pure (Nat.zero_le n)
  · intro c s c' h
    cases h

theorem nesting_statement : Yields (fun s => s.nesting ≤ n) (statement st inner) := by
  refine .after fun tok => ?_
  split
  · refine hinner.block.bind fun body hbody => ?_
    obtain ⟨brace, stmts⟩ := body
    exact yields_pure hbody
  · exact nesting_get
  · exact nesting_cond hinner
  · exact nesting_loop hinner
  · exact .after fun word => hinner.expression.bind fun e he => yields_pure he
  · exact nesting_simple hinner

theorem nesting_closedStatement : Yields (fun s => s.nesting ≤ n) (closedStatement st inner) :=
  (nesting_statement hinner).bind fun _ hs => .after fun _ => yields_pure hs

theorem nesting_blockBody : Yields (fun b => b.nesting ≤ n + 1) (blockBody st inner) := by
  refine .after fun start => .after fun _ => ?_
  refine Yields.bind (P := fun stmts => ∀ s ∈ stmts, s.nesting ≤ n) ?_ fun stmts hstmts => ?_
  · refine .iterate (P := fun stmts => ∀ s ∈ stmts, s.nesting ≤ n) (fun stmts hstmts => ?_) (by simp)
    refine .after fun found => ?_
    split
    · exact yields_pure fun s hs => hstmts s (List.mem_reverse.1 hs)
    · refine .after fun ended => ?_
      split
      · exact yields_failHere _
      · refine (nesting_closedStatement hinner).bind fun s hs => yields_pure ?_
        exact List.forall_mem_cons.2 ⟨hs, hstmts⟩
  · exact yields_pure (Nat.succ_le_succ (nestingAll_le_iff.2 hstmts))

end Levels

/-! ### Levels and programs -/

theorem innerNested_levels (st : Setting) (n : Nat) : InnerNested n (levels st n) := by
  induction n with
  | zero =>
    constructor
    · exact yields_failHere fun _ => .nestingTooDeep st.limits.nesting
    · exact yields_failHere fun _ => .nestingTooDeep st.limits.nesting
  | succ n ih =>
    constructor
    · intro c e c' h
      exact Nat.succ_le_succ (inside_comparison ih c e c' h)
    · intro c b c' h
      exact nesting_blockBody ih c b c' h

/-- The statements of a program have at most as many levels as the limit allows. -/
theorem nesting_program (st : Setting) :
    Yields (fun p => ∀ s ∈ p, s.nesting ≤ st.limits.nesting) (program st) := by
  refine .iterate (P := fun stmts => ∀ s ∈ stmts, s.nesting ≤ st.limits.nesting)
    (fun stmts hstmts => .after fun ended => ?_) (by simp)
  split
  · exact yields_pure fun s hs => hstmts s (List.mem_reverse.1 hs)
  · refine (nesting_closedStatement (innerNested_levels st _)).bind fun s hs => yields_pure ?_
    exact List.forall_mem_cons.2 ⟨hs, hstmts⟩

end Parser

/-! ### Texts and their imports -/

namespace Program

variable {load : Loader} {limits : Limits} {stack : List String} {source : String} {p : Program}

theorem nesting_of_read (h : read load limits stack source = .ok p) :
    ∀ s ∈ p, s.nesting ≤ limits.nesting := by
  rw [read_eq] at h
  rcases hscan : Token.scan limits.lexeme source with e | tokens
  · rw [hscan] at h
    cases h
  · simp only [hscan] at h
    exact Parser.nesting_program (setting load limits stack) (Cursor.ofList tokens) p _ (Prod.ext h rfl)

/-- **The limit on nesting bounds the tree.**  The statements of a program that was read, and those of the
programs that it imports at any depth, have at most as many levels as the limit allows. -/
theorem nesting_le_of_ofSource (load : Loader) (limits : Limits) (origin : Option String)
    (source : String) (p : Program) (h : ofSource load limits origin source = .ok p) :
    (∀ s ∈ p, s.nesting ≤ limits.nesting) ∧
      ∀ i, Embeds p i → ∀ s ∈ i.program, s.nesting ≤ limits.nesting := by
  refine ⟨nesting_of_read h, fun i hi => ?_⟩
  obtain ⟨text, -, hfile⟩ := ofSource_of_embeds h hi
  exact nesting_of_read hfile

/-- A file that needs all of four levels, one of them for parentheses. -/
def deepFile : Loader :=
  .ofList [("deep", .ok "Loop (x) \x7bIf (y) \x7bz = (w);\x7d;\x7d;")]

/-- What the file has. -/
def deepLoop : Stmt :=
  .loop 1 (.var 1 "x") (.mk 1 [.cond 1 (.var 1 "y")
    (.mk 1 [.assign 1 .define (.var 1 "z") (.var 1 "w")]) none])

/-- A call with a table in it, in which a function has the file imported in its body. -/
def deepCall : Stmt :=
  .expr 1 (.call 1 (.var 1 "f") [.table 1 [(.var 1 "k",
    .function 1 (.mk 0 1 none [] (.mk 1 [.get 1 "deep" [deepLoop]])))]])

/-- Four levels are used up by the call, and the file starts again with four. -/
theorem nesting_le_of_ofSource_deepFile :
    ofSource deepFile { nesting := 4 } none "f([k: Function() \x7bGet \"deep\";\x7d]);" = .ok [deepCall] ∧
      (deepCall.nesting = 4 ∧ deepCall.nesting ≤ 4) ∧ deepLoop.nesting = 3 ∧ deepLoop.nesting ≤ 4 := by
  have h : ofSource deepFile { nesting := 4 } none "f([k: Function() \x7bGet \"deep\";\x7d]);" =
      .ok [deepCall] := by with_unfolding_all rfl
  obtain ⟨hown, himports⟩ := nesting_le_of_ofSource deepFile { nesting := 4 } none _ _ h
  have himport : Embeds [deepCall] ⟨1, "deep", [deepLoop]⟩ := .here List.mem_cons_self
  exact ⟨h, ⟨by decide, hown _ List.mem_cons_self⟩, by decide, himports _ himport _ List.mem_cons_self⟩

/-- With one level less, the call is refused where the body of the function starts. -/
example : ofSource deepFile { nesting := 3 } none "f([k: Function() \x7bGet \"deep\";\x7d]);" =
    .error (.grammar 1 (.nestingTooDeep 3)) := by with_unfolding_all rfl

end Program

end TableScript
