import TableScript.Program.Statement
import TableScript.Proofs.Parsing.Cursor
import TableScript.Proofs.Program.Lines

/-!
# Relations that the grammar keeps

Two runs of the grammar differ in a few places only: what their states hold beside a cursor, on what lines
the tokens are, what an import yields, where nesting ends, and which file a function literal notes.  So a
relation between parsers that is kept by sequencing, by repetition and by the basic steps holds between
the parsers of programs as soon as it holds in these places.  `Parametric f R` says that `R` is such a
relation; `Parametric.program` is the walk over the grammar, which is made here once for all relations.

The trees that come of the two runs are related as well: a tree of the second is one of the first with its
lines changed by `f` and the files of its function literals by `noted`.  So `R` has the change of the value
as an argument.  Imports are read where the word for them stands, and a relation may rest on that
(`getHere`).

Two kinds of relations are used.  `Tracks h E g x y`: from states that correspond, the parser `y` does what
`x` does, with a value changed by `g`, except where `x` fails with an error in `E` or comes to an exit.
`FailsWith Q F x`: on cursors in `Q`, the errors of `x` are in `F`; this is about one parser, and the
second one is ignored.
-/

namespace TableScript

/-- Errors that the grammar raises about the tokens by themselves. -/
def GrammarError.isLocal : GrammarError → Bool
  | .unexpectedToken _ | .expected _ _ | .unexpectedEnd | .trailingComma | .chainedComparison => true
  | _ => false

namespace Parser

open HasCursor

/-! ### Rules in smaller steps -/

section

variable {σ : Type} [HasCursor σ] {α : Type}

/-- Taking a token if it is the right one. -/
theorem update_eat_eq (t : Token) :
    (update (Cursor.eat t) : ParserOn σ Bool) =
      (current >>= fun found =>
        if found == t then advance >>= fun _ => pure true else pure false) := by
  funext s
  show (match Cursor.eat t (cursor s) with | (b, c) => (Except.ok b, withCursor s c)) =
    (if (cursor s).current == t then advance >>= fun _ => pure true else pure false : ParserOn σ Bool) s
  rw [Cursor.eat]
  cases (cursor s).current == t with
  | true => rfl
  | false =>
    show (Except.ok false, withCursor s (cursor s)) = (Except.ok false, s)
    rw [withCursor_cursor]

theorem atEnd_eq : (atEnd : ParserOn σ Bool) = current >>= fun tok => pure tok.isEnd := rfl

theorem failHere_eq (e : Token → GrammarError) :
    (failHere e : ParserOn σ α) = line >>= fun n => current >>= fun tok => failAt n (e tok) := rfl

/-- An import, or a failure where none stands. -/
def getHere (st : Setting) : ParserOn σ Stmt := do
  match ← current with
  | .keyword .getWord => get st
  | _ => failHere .unexpectedToken

theorem getHere_of_eq {st : Setting} {s : σ} (h : (cursor s).current = .keyword .getWord) :
    getHere st s = get st s := by
  show (match (cursor s).current with
    | .keyword .getWord => get st
    | _ => failHere .unexpectedToken : ParserOn σ Stmt) s = _
  rw [h]

theorem getHere_of_ne {st : Setting} {s : σ} (h : (cursor s).current ≠ .keyword .getWord) :
    getHere st s = failHere .unexpectedToken s := by
  show (match (cursor s).current with
    | .keyword .getWord => get st
    | _ => failHere .unexpectedToken : ParserOn σ Stmt) s = _
  generalize (cursor s).current = tok at h ⊢
  split
  · exact absurd rfl h
  · rfl

/-- A statement that is an import starts with the word for it. -/
theorem statement_eq (st : Setting) (inner : InnerOn σ) :
    statement st inner = (current >>= fun tok => match tok with
      | .symbol .leftBrace => inner.block >>= fun body => pure (.block body)
      | .keyword .getWord => getHere st
      | .keyword .ifWord => cond inner
      | .keyword .loopWord => loop inner
      | .keyword .returnWord => ret inner
      | _ => simple inner) := by
  funext s
  have hbind (k : Token → ParserOn σ Stmt) : (current >>= k) s = k (cursor s).current s := rfl
  rw [statement, hbind, hbind]
  generalize hcurrent : (cursor s).current = tok
  cases tok with
  | symbol m => cases m <;> rfl
  | keyword w =>
    cases w with
    | getWord => exact (getHere_of_eq hcurrent).symm
    | _ => rfl
  | _ => rfl

end

/-- What a turn leads to, with what it carries changed. -/
def Turn.map {α β : Type} (g : α → α) (g' : β → β) : Turn α β → Turn α β
  | .again a => .again (g a)
  | .finish b => .finish (g' b)

variable {σ τ : Type} [HasCursor σ] [HasCursor τ]

/-- A relation that is kept by everything that the grammar is made of.  `R g x y` relates parsers where the
value of the second is that of the first changed by `g`; lines are changed by `f`. -/
structure Parametric (f : Nat → Nat)
    (R : ∀ {α : Type}, (α → α) → ParserOn σ α → ParserOn τ α → Prop) : Prop where
  pure : ∀ {α : Type} {g : α → α} {a a' : α}, a' = g a → R g (Pure.pure a) (Pure.pure a')
  bind : ∀ {α β : Type} {g : α → α} {g' : β → β} {x : ParserOn σ α} {y : ParserOn τ α}
    {k : α → ParserOn σ β} {k' : α → ParserOn τ β},
    R g x y → (∀ a, R g' (k a) (k' (g a))) → R g' (x >>= k) (y >>= k')
  current : R (fun tok => tok) current current
  line : R f line line
  advance : R (Located.mapLine f) advance advance
  fail : ∀ {α : Type} {g : α → α} (line : Nat) (e : GrammarError), e.isLocal = true →
    R g (failAt line e) (failAt (f line) e)
  iterate : ∀ {α β : Type} {g : α → α} {g' : β → β} {turn : α → ParserOn σ (Turn α β)}
    {turn' : α → ParserOn τ (Turn α β)}, (∀ a, R (Turn.map g g') (turn a) (turn' (g a))) →
      ∀ a, R g' (Parser.iterate turn a) (Parser.iterate turn' (g a))

namespace Parametric

variable {f : Nat → Nat} {R : ∀ {α : Type}, (α → α) → ParserOn σ α → ParserOn τ α → Prop}
variable (hR : Parametric f R)
variable {α : Type} {g : α → α}

include hR

/-! ### Steps and lists -/

theorem atEnd : R (fun ended => ended) atEnd atEnd := by
  rw [atEnd_eq, atEnd_eq]
  exact hR.bind hR.current fun tok => hR.pure rfl

theorem update_eat (t : Token) :
    R (fun found => found) (update (Cursor.eat t)) (update (Cursor.eat t)) := by
  rw [update_eat_eq, update_eat_eq]
  refine hR.bind hR.current fun found => ?_
  split
  · exact hR.bind hR.advance fun _ => hR.pure rfl
  · exact hR.pure rfl

theorem eat (m : Symbol) : R (fun found => found) (eat m) (eat m) := hR.update_eat (.symbol m)

theorem eatWord (w : Keyword) : R (fun found => found) (eatWord w) (eatWord w) :=
  hR.update_eat (.keyword w)

theorem failHere (e : Token → GrammarError) (he : ∀ t, (e t).isLocal = true) :
    R g (failHere e) (failHere e) := by
  rw [failHere_eq, failHere_eq]
  exact hR.bind hR.line fun line => hR.bind hR.current fun t => hR.fail line (e t) (he t)

theorem expect (m : Symbol) : R (fun _ => ()) (expect m) (expect m) := by
  refine hR.bind (hR.eat m) fun found => ?_
  split
  · exact hR.pure rfl
  · exact hR.failHere _ fun _ => rfl

theorem name : R (fun s => s) name name := by
  refine hR.bind hR.current fun found => ?_
  split
  · exact hR.bind hR.advance fun _ => hR.pure rfl
  · exact hR.failHere _ fun _ => rfl

theorem commaList {item : ParserOn σ α} {item' : ParserOn τ α} (hitem : R g item item')
    (closing : Symbol) : R (List.map g) (commaList item closing) (commaList item' closing) := by
  refine hR.bind (hR.eat closing) fun found => ?_
  cases found with
  | true => exact hR.pure rfl
  | false =>
    refine hR.iterate (g := List.map g) (fun items => ?_) []
    refine hR.bind hitem fun a => hR.bind (hR.eat .comma) fun comma => ?_
    split
    · refine hR.bind hR.current fun next => ?_
      split
      · exact hR.failHere _ fun _ => rfl
      · exact hR.pure rfl
    · refine hR.bind (hR.eat closing) fun found => ?_
      split
      · refine hR.pure ?_
        rw [Turn.map, List.map_reverse, List.map_cons]
      · exact hR.failHere _ fun _ => rfl

end Parametric

/-! ### Levels of nesting -/

/-- The parsers of the next level are related. -/
structure InnerRelated (f : Nat → Nat) (noted : Option String → Option String)
    (R : ∀ {α : Type}, (α → α) → ParserOn σ α → ParserOn τ α → Prop)
    (inner : InnerOn σ) (inner' : InnerOn τ) : Prop where
  expression : R (Expr.relabel (.ofText f noted) true) inner.expression inner'.expression
  block : R (Block.relabel (.ofText f noted) true) inner.block inner'.block

namespace Parametric

variable {f : Nat → Nat} {noted : Option String → Option String}
variable {R : ∀ {α : Type}, (α → α) → ParserOn σ α → ParserOn τ α → Prop}
variable (hR : Parametric f R)
variable {st st' : Setting} {inner : InnerOn σ} {inner' : InnerOn τ}

include hR

section Rules

variable (hinner : InnerRelated f noted R inner inner')

include hinner

/-! ### Expressions -/

theorem entry :
    R (Prod.map (Expr.relabel (.ofText f noted) true) (Expr.relabel (.ofText f noted) true))
      (entry inner) (entry inner') := by
  refine hR.bind hinner.expression fun key => hR.bind (hR.expect _) fun _ => ?_
  exact hR.bind hinner.expression fun value => hR.pure rfl

theorem table : R (Expr.relabel (.ofText f noted) true) (table inner) (table inner') := by
  refine hR.bind hR.advance fun bracket => ?_
  refine hR.bind (hR.commaList (hR.entry hinner) _) fun entries => hR.pure ?_
  rw [Expr.relabel, relabelEntries_eq]
  rfl

theorem parenthesized :
    R (Expr.relabel (.ofText f noted) true) (parenthesized inner) (parenthesized inner') := by
  refine hR.bind hR.advance fun _ => hR.bind hinner.expression fun e => ?_
  exact hR.bind (hR.expect _) fun _ => hR.pure rfl

theorem postfixTurn (e : Expr) :
    R (Turn.map (Expr.relabel (.ofText f noted) true) (Expr.relabel (.ofText f noted) true))
      (postfixTurn inner e) (postfixTurn inner' (e.relabel (.ofText f noted) true)) := by
  refine hR.bind hR.current fun tok => ?_
  split
  · refine hR.bind hR.advance fun paren => ?_
    refine hR.bind (hR.commaList hinner.expression _) fun args => hR.pure ?_
    rw [Turn.map, Expr.relabel, relabelArgs_eq]
    rfl
  · refine hR.bind hR.advance fun bracket => hR.bind hinner.expression fun key => ?_
    exact hR.bind (hR.expect _) fun _ => hR.pure rfl
  · exact hR.pure rfl

variable (hfile : st'.file = noted st.file)

include hfile

theorem function :
    R (Expr.relabel (.ofText f noted) true) (function st inner) (function st' inner') := by
  refine hR.bind hR.advance fun word => hR.bind (hR.expect _) fun _ => ?_
  refine hR.bind (hR.commaList hR.name _) fun params => hR.bind hinner.block fun body => hR.pure ?_
  rw [List.map_id', hfile]
  rfl

omit hinner hfile in
theorem literal {make : Nat → Expr}
    (hmake : ∀ line, (make line).relabel (.ofText f noted) true = make (f line)) :
    R (Expr.relabel (.ofText f noted) true) (literal make) (literal make) :=
  hR.bind hR.advance fun token => hR.pure (hmake token.line).symm

theorem primary :
    R (Expr.relabel (.ofText f noted) true) (primary st inner) (primary st' inner') := by
  refine hR.bind hR.current fun tok => ?_
  split
  · exact hR.literal fun _ => rfl
  · exact hR.literal fun _ => rfl
  · exact hR.literal fun _ => rfl
  · exact hR.literal fun _ => rfl
  · exact hR.function hinner hfile
  · exact hR.table hinner
  · exact hR.parenthesized hinner
  · exact hR.failHere _ fun _ => rfl
  · exact hR.failHere _ fun _ => rfl

theorem postfixed :
    R (Expr.relabel (.ofText f noted) true) (postfixed st inner) (postfixed st' inner') :=
  hR.bind (hR.primary hinner hfile) (hR.iterate (hR.postfixTurn hinner))

theorem signed :
    R (Expr.relabel (.ofText f noted) true) (signed st inner) (signed st' inner') := by
  refine hR.bind hR.current fun tok => ?_
  have hpostfixed := hR.postfixed hinner hfile
  rcases sign? tok with - | op
  · exact hpostfixed
  · exact hR.bind hR.advance fun sign => hR.bind hpostfixed fun e => hR.pure rfl

omit hinner hfile in
theorem chain {operand : ParserOn σ Expr} {operand' : ParserOn τ Expr}
    (op? : Token → Option ArithOp) (h : R (Expr.relabel (.ofText f noted) true) operand operand') :
    R (Expr.relabel (.ofText f noted) true) (chain op? operand) (chain op? operand') := by
  refine hR.bind h (hR.iterate fun left => hR.bind hR.current fun tok => ?_)
  rcases op? tok with - | op
  · exact hR.pure rfl
  · exact hR.bind hR.advance fun mark => hR.bind h fun right => hR.pure rfl

theorem sum : R (Expr.relabel (.ofText f noted) true) (sum st inner) (sum st' inner') :=
  hR.chain _ (hR.chain _ (hR.signed hinner hfile))

theorem comparison :
    R (Expr.relabel (.ofText f noted) true) (comparison st inner) (comparison st' inner') := by
  have hsum := hR.sum hinner hfile
  refine hR.bind hsum fun left => hR.bind hR.current fun tok => ?_
  rcases compareOp? tok with - | op
  · exact hR.pure rfl
  · refine hR.bind hR.advance fun mark => hR.bind hsum fun right => hR.bind hR.current fun next => ?_
    split
    · exact hR.failHere _ fun _ => rfl
    · exact hR.pure rfl

omit hfile

/-! ### Statements -/

theorem condition :
    R (Expr.relabel (.ofText f noted) true) (condition inner) (condition inner') := by
  refine hR.bind (hR.expect _) fun _ => hR.bind hinner.expression fun e => ?_
  exact hR.bind (hR.expect _) fun _ => hR.pure rfl

theorem cond : R (Stmt.relabel (.ofText f noted) true) (cond inner) (cond inner') := by
  refine hR.bind hR.advance fun word => hR.bind (hR.condition hinner) fun e => ?_
  refine hR.bind hinner.block fun yes => hR.bind (hR.eatWord _) fun found => ?_
  split
  · exact hR.bind hinner.block fun no => hR.pure rfl
  · exact hR.pure rfl

theorem loop : R (Stmt.relabel (.ofText f noted) true) (loop inner) (loop inner') := by
  refine hR.bind hR.advance fun word => hR.bind (hR.condition hinner) fun e => ?_
  exact hR.bind hinner.block fun body => hR.pure rfl

theorem ret : R (Stmt.relabel (.ofText f noted) true) (ret inner) (ret inner') :=
  hR.bind hR.advance fun _ => hR.bind hinner.expression fun _ => hR.pure rfl

theorem simple : R (Stmt.relabel (.ofText f noted) true) (simple inner) (simple inner') := by
  refine hR.bind hR.line fun start => hR.bind hinner.expression fun e => ?_
  refine hR.bind (hR.eat _) fun found => ?_
  split
  · exact hR.bind hinner.expression fun value => hR.pure rfl
  · refine hR.bind (hR.eat _) fun found => ?_
    split
    · exact hR.bind hinner.expression fun value => hR.pure rfl
    · exact hR.pure rfl

variable (hget : R (Stmt.relabel (.ofText f noted) true) (getHere st) (getHere st'))

include hget

theorem statement :
    R (Stmt.relabel (.ofText f noted) true) (statement st inner) (statement st' inner') := by
  rw [statement_eq, statement_eq]
  refine hR.bind hR.current fun tok => ?_
  split
  · exact hR.bind hinner.block fun body => hR.pure rfl
  · exact hget
  · exact hR.cond hinner
  · exact hR.loop hinner
  · exact hR.ret hinner
  · exact hR.simple hinner

theorem closedStatement :
    R (Stmt.relabel (.ofText f noted) true) (closedStatement st inner)
      (closedStatement st' inner') :=
  hR.bind (hR.statement hinner hget) fun _ => hR.bind (hR.expect _) fun _ => hR.pure rfl

theorem blockBody :
    R (Block.relabel (.ofText f noted) true) (blockBody st inner) (blockBody st' inner') := by
  have hturns (stmts : List Stmt) :
      R (Turn.map (List.map (Stmt.relabel (.ofText f noted) true))
          (List.map (Stmt.relabel (.ofText f noted) true)))
        (blockTurn st inner stmts)
        (blockTurn st' inner' (stmts.map (Stmt.relabel (.ofText f noted) true))) := by
    refine hR.bind (hR.eat _) fun found => ?_
    split
    · refine hR.pure ?_
      rw [Turn.map, List.map_reverse]
    · refine hR.bind hR.atEnd fun ended => ?_
      split
      · exact hR.failHere _ fun _ => rfl
      · exact hR.bind (hR.closedStatement hinner hget) fun s => hR.pure rfl
  refine hR.bind hR.line fun start => hR.bind (hR.expect _) fun _ => ?_
  refine hR.bind (hR.iterate hturns []) fun stmts => hR.pure ?_
  rw [Block.relabel, relabelAll_eq]
  rfl

theorem programBody :
    R (relabelAll (.ofText f noted) true) (programBody st inner) (programBody st' inner') := by
  have hmap : relabelAll (.ofText f noted) true = List.map (Stmt.relabel (.ofText f noted) true) :=
    funext fun ss => relabelAll_eq _ _ ss
  rw [hmap]
  refine hR.iterate (g := List.map (Stmt.relabel (.ofText f noted) true)) (fun stmts => ?_) []
  refine hR.bind hR.atEnd fun ended => ?_
  split
  · refine hR.pure ?_
    rw [Turn.map, List.map_reverse]
  · exact hR.bind (hR.closedStatement hinner hget) fun s => hR.pure rfl

end Rules

end Parametric

/-! ### Two settings -/

namespace Parametric

variable {f : Nat → Nat} {noted : Option String → Option String}
variable {R : ∀ {α : Type}, (α → α) → Parser α → Parser α → Prop} (hR : Parametric f R)
variable {st st' : Setting} (hfile : st'.file = noted st.file)
variable (hget : R (Stmt.relabel (.ofText f noted) true) (getHere st) (getHere st'))

include hR hfile hget

/-- If two settings are related where nesting ends in the first, they are at every level. -/
theorem levels {k : Nat} (hlast : InnerRelated f noted R (levels st 0) (levels st' k)) (n : Nat) :
    InnerRelated f noted R (levels st n) (levels st' (k + n)) := by
  induction n with
  | zero => exact hlast
  | succ n ih => exact ⟨hR.comparison ih hfile, hR.blockBody ih hget⟩

/-- The programs of two settings are related if imports are, and the places where nesting ends in the
first. -/
theorem program {k : Nat} (hlimit : st'.limits.nesting = k + st.limits.nesting)
    (hlast : InnerRelated f noted R (Parser.levels st 0) (Parser.levels st' k)) :
    R (relabelAll (.ofText f noted) true) (program st) (program st') := by
  have hinner := hR.levels hfile hget hlast st.limits.nesting
  rw [← hlimit] at hinner
  exact hR.programBody hinner hget

end Parametric

/-! ### The errors of a parser -/

/-- On cursors in `Q`, which it does not leave, `x` fails only with errors in `F`. -/
def FailsWith (Q : Cursor → Prop) (F : Error → Prop) {α : Type} (_g : α → α) (x _y : Parser α) : Prop :=
  ∀ c, Q c → Q (x c).2 ∧ ∀ e, (x c).1 = .error e → F e

section

variable {Q : Cursor → Prop} {F : Error → Prop} {α β : Type} {g : α → α} {g' : β → β}

theorem FailsWith.of_ok {x y : Parser α} (hx : ∀ c, Q c → ∃ a c', x c = (.ok a, c') ∧ Q c') :
    FailsWith Q F g x y := by
  intro c hc
  obtain ⟨a, c', hok, hc'⟩ := hx c hc
  rw [hok]
  exact ⟨hc', fun e he => (by cases he)⟩

theorem FailsWith.failHere {e : Token → GrammarError} {y : Parser α}
    (he : ∀ line tok, F (.grammar line (e tok))) : FailsWith Q F g (failHere e) y := by
  intro c hc
  refine ⟨hc, fun e' he' => ?_⟩
  cases he'
  exact he _ _

theorem FailsWith.bind {x y : Parser α} {k k' : α → Parser β} (h : FailsWith Q F g x y)
    (hk : ∀ a, FailsWith Q F g' (k a) (k' (g a))) : FailsWith Q F g' (x >>= k) (y >>= k') := by
  intro c hc
  obtain ⟨hQ, hF⟩ := h c hc
  rcases hx : x c with ⟨e | a, c₁⟩
  · rw [Action.bind_of_error hx]
    rw [hx] at hQ hF
    exact ⟨hQ, fun e' he => hF e' (by cases he; rfl)⟩
  · rw [Action.bind_of_ok hx]
    rw [hx] at hQ
    exact hk a c₁ hQ

theorem FailsWith.iterate {turn turn' : α → Parser (Turn α β)}
    (hF : ∀ line tok, F (.grammar line (.unexpectedToken tok)))
    (h : ∀ a, FailsWith Q F (Turn.map g g') (turn a) (turn' (g a))) (a : α) :
    FailsWith Q F g' (iterate turn a) (iterate turn' (g a)) := by
  intro c hc
  fun_induction Parser.iterate turn a c with
  | case1 a c e c₁ hturn =>
    obtain ⟨hQ, hfail⟩ := h a c hc
    rw [hturn] at hQ hfail
    exact ⟨hQ, fun e' he => hfail e' (by cases he; rfl)⟩
  | case2 a c b c₁ hturn =>
    have hQ := (h a c hc).1
    rw [hturn] at hQ
    exact ⟨hQ, fun e he => (by cases he)⟩
  | case3 a c a₁ c₁ hturn hlt ih =>
    have hQ := (h a c hc).1
    rw [hturn] at hQ
    exact ih hQ
  | case4 a c a₁ c₁ hturn hlt =>
    have hQ := (h a c hc).1
    rw [hturn] at hQ
    have hrefused : FailsWith Q F g' (Parser.failHere .unexpectedToken)
      (Parser.failHere .unexpectedToken) := .failHere hF
    exact hrefused c₁ hQ

theorem parametric_failsWith (hQ : ∀ c : Cursor, Q c → Q c.advance.2)
    (hF : ∀ line (e : GrammarError), e.isLocal = true → F (.grammar line e)) :
    Parametric (fun line => line) (FailsWith Q F) where
  pure {_ _ a _} _ := FailsWith.of_ok fun c hc => ⟨a, c, rfl, hc⟩
  bind := FailsWith.bind
  current := FailsWith.of_ok fun c hc => ⟨c.current, c, rfl, hc⟩
  line := FailsWith.of_ok fun c hc => ⟨c.line, c, rfl, hc⟩
  advance := FailsWith.of_ok fun c hc => ⟨c.advance.1, c.advance.2, rfl, hQ c hc⟩
  fail line e he := fun c hc => ⟨hc, fun e' he' => by cases he'; exact hF line e he⟩
  iterate := FailsWith.iterate fun line tok => hF line _ rfl

end

end Parser

end TableScript
