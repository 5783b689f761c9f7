import TableScript.Proofs.Parsing.Soundness

/-!
# What is derivable is accepted

`Reads st n k ts a` says what the parser of the category `k` does on the tokens `ts` with `n` levels of
nesting left: it yields the tree `a` and stops right behind them.  There is one lemma for each rule of
the grammar, and the rules for expressions and blocks are the ones that take a level.

Two things are asked of the place.  A parser is greedy, so the token behind must be none that goes
on with the category; for an expression that is `Token.EndsExpression`.  And the categories that grow
to the left are read by a loop, so the lemmas say where the loop stands after the tokens rather than
what it ends with.

Each level of nesting has a token of its own, so as many levels as there are tokens are enough for
every derivation (`reads_of_derives`).
-/

namespace TableScript

/-! ### The token behind -/

/-- Tokens that start a call or an index. -/
def Token.opensCall : Token → Bool
  | .symbol .leftParen | .symbol .leftBracket => true
  | _ => false

/-- The token cannot go on with an expression. -/
structure Token.EndsExpression (t : Token) : Prop where
  call : t.opensCall = false
  product : Parser.productOp? t = none
  sum : Parser.sumOp? t = none
  compare : Parser.compareOp? t = none

namespace Parser

variable {t : Token}

theorem opensCall_of_productOp? {op : ArithOp} (h : productOp? t = some op) :
    t.opensCall = false := by
  unfold productOp? at h
  split at h
  · rfl
  · rfl
  · cases h

theorem follow_of_sumOp? {op : ArithOp} (h : sumOp? t = some op) :
    t.opensCall = false ∧ productOp? t = none := by
  unfold sumOp? at h
  split at h
  · exact ⟨rfl, rfl⟩
  · exact ⟨rfl, rfl⟩
  · cases h

theorem follow_of_compareOp? {op : CompareOp} (h : compareOp? t = some op) :
    t.opensCall = false ∧ productOp? t = none ∧ sumOp? t = none := by
  unfold compareOp? at h
  split at h
  all_goals first | exact ⟨rfl, rfl, rfl⟩ | cases h

theorem sign?_of_startsPrimary (h : t.startsPrimary = true) : sign? t = none := by
  unfold Token.startsPrimary at h
  split at h
  all_goals first | rfl | cases h

theorem isEnd_of_startsStatement (h : t.startsStatement = true) : t.isEnd = false := by
  cases t with
  | endOfInput => cases h
  | _ => rfl

variable {α β : Type} {c c' : Cursor}

/-! ### Turns on known tokens -/

theorem literal_of_moves {make : Nat → Expr} {t : Located} (h : c.Moves [t] c')
    (ht : t.token.isEnd = false) : literal make c = (.ok (make t.line), c') := by
  rw [literal, advance_bind, h.here, h.advance_eq ht]
  rfl

theorem iterate_postfixTurn_of_ends {inner : Inner} {e : Expr}
    (h : c.current.opensCall = false) : iterate (postfixTurn inner) e c = (.ok e, c) := by
  refine iterate_finish ?_
  rw [postfixTurn, current_bind]
  generalize c.current = tok at h ⊢
  split
  · cases h
  · cases h
  · rfl

theorem iterate_chainTurn_of_ends {op? : Token → Option ArithOp} {operand : Parser Expr} {e : Expr}
    (h : op? c.current = none) : iterate (chainTurn op? operand) e c = (.ok e, c) :=
  iterate_finish (chainTurn_of_none h)

/-- Behind an operator the loop goes on with the operand. -/
theorem iterate_chainTurn_of_some {op? : Token → Option ArithOp} {operand : Parser Expr}
    {e e' : Expr} {op : ArithOp} {t : Located} {us : List Located}
    (hmove : c.Moves (t :: us) c') (hop : op? t.token = some op)
    (hright : operand c.advance.2 = (.ok e', c')) :
    iterate (chainTurn op? operand) e c =
      iterate (chainTurn op? operand) (.arith t.line op e e') c' := by
  refine iterate_again ?_ (hmove.remaining_lt (by simp))
  rw [chainTurn_of_some (by rw [hmove.current, hop]), Action.bind_of_ok hright, hmove.line]
  rfl

theorem commaList_turn_of_comma {item : Parser α} {closing : Symbol} {items : List α} {a : α}
    {c₁ : Cursor} (hitem : item c = (.ok a, c₁)) (hcomma : c₁.current = .symbol .comma)
    (hnext : c₁.advance.2.current ≠ .symbol closing) :
    commaList.turn item closing items c = (.ok (.again (a :: items)), c₁.advance.2) := by
  rw [commaList.turn, Action.bind_of_ok hitem, eat_bind_of_eq _ hcomma, if_pos rfl, current_bind,
    if_neg (mt (beq_symbol _ _).1 hnext)]
  rfl

theorem commaList_turn_of_closing {item : Parser α} {closing : Symbol} {items : List α} {a : α}
    {c₁ : Cursor} (hitem : item c = (.ok a, c₁)) (hclosing : c₁.current = .symbol closing)
    (hcomma : closing ≠ .comma) :
    commaList.turn item closing items c =
      (.ok (.finish (a :: items).reverse), c₁.advance.2) := by
  have hnot : c₁.current ≠ .symbol .comma := by
    rw [hclosing]
    simpa using hcomma
  rw [commaList.turn, Action.bind_of_ok hitem, eat_bind_of_ne _ hnot, if_neg (by simp),
    eat_bind_of_eq _ hclosing, if_pos rfl]
  rfl

theorem statement_of_startsExpression {st : Setting} {inner : Inner}
    (h : c.current.startsExpression = true) : statement st inner c = simple inner c := by
  rw [statement, current_bind]
  generalize c.current = tok at h ⊢
  split
  all_goals first | rfl | cases h

/-! ### What the parsers do on derivable tokens -/

/-- The parser of an item. -/
def itemAt (inner : Inner) : (k : Item) → Parser k.Tree
  | .name => name
  | .expression => inner.expression
  | .entry => entry inner

/-- A turn that reads a statement wherever one can start. -/
def ReadsStatements (st : Setting) (inner : Inner)
    (turn : List Stmt → Parser (Turn (List Stmt) β)) : Prop :=
  ∀ stmts c, c.current.startsStatement = true →
    turn stmts c = (closedStatement st inner >>= fun s => pure (.again (s :: stmts))) c

/-- With `n` levels left, the parser of the category takes the tokens `ts` and yields the tree `a`, if
the next token does not go on with the category. -/
def Reads (st : Setting) (n : Nat) : (k : Category) → List Located → k.Tree → Prop
  | .primary, ts, e => ∀ c c', c.Moves ts c' → primary st (levels st n) c = (.ok e, c')
  | .postfixed, ts, e => ∀ c c', c.Moves ts c' →
      postfixed st (levels st n) c = iterate (postfixTurn (levels st n)) e c'
  | .signed, ts, e => ∀ c c', c.Moves ts c' → c'.current.opensCall = false →
      signed st (levels st n) c = (.ok e, c')
  | .product, ts, e => ∀ c c', c.Moves ts c' → c'.current.opensCall = false →
      product st (levels st n) c =
        iterate (chainTurn productOp? (signed st (levels st n))) e c'
  | .sum, ts, e => ∀ c c', c.Moves ts c' →
      c'.current.opensCall = false → productOp? c'.current = none →
      sum st (levels st n) c = iterate (chainTurn sumOp? (product st (levels st n))) e c'
  | .item k, ts, a => ∀ c c', c.Moves ts c' → c'.current.EndsExpression →
      itemAt (levels st n) k c = (.ok a, c')
  | .several k, ts, as => ∀ c c' closing line items,
      c.Moves (ts ++ [closing.at line]) c' → closing = .rightParen ∨ closing = .rightBracket →
      iterate (commaList.turn (itemAt (levels st n) k) closing) items c =
        (.ok (items.reverse ++ as), c')
  | .list k, ts, as => ∀ c c' closing line,
      c.Moves (ts ++ [closing.at line]) c' → closing = .rightParen ∨ closing = .rightBracket →
      commaList (itemAt (levels st n) k) closing c = (.ok as, c')
  | .block, ts, b => ∀ c c', c.Moves ts c' → (levels st n).block c = (.ok b, c')
  | .statement, ts, s => ∀ c c', c.Moves ts c' → c'.current = .symbol .semicolon →
      statement st (levels st n) c = (.ok s, c')
  | .statements, ts, ss => ∀ c c' (β : Type) (turn : List Stmt → Parser (Turn (List Stmt) β)) stmts,
      c.Moves ts c' → ReadsStatements st (levels st n) turn →
      iterate turn stmts c = iterate turn (ss.reverse ++ stmts) c'

section Rules

variable {st : Setting} {n : Nat} {ts us ps bs cs : List Located} {e e' : Expr}

/-- The expression that a token is by itself. -/
def literal? : Token → Option (Nat → Expr)
  | .number x => some fun line => .number line x
  | .bool b => some fun line => .bool line b
  | .text s => some fun line => .text line s
  | .name s => some fun line => .var line s
  | _ => none

theorem reads_literal {t : Located} {make : Nat → Expr} (h : literal? t.token = some make) :
    Reads st n .primary [t] (make t.line) := by
  intro c c' hmove
  rw [primary, current_bind, hmove.current]
  obtain ⟨token, line⟩ := t
  cases token with
  | number | bool | text | name =>
    cases h
    exact literal_of_moves hmove rfl
  | _ => cases h

theorem reads_function {params : List String} {body : Block} (l l₁ l₂ : Nat)
    (hps : Reads st n (.list .name) ps params) (hbs : Reads st n .block bs body) :
    Reads st n .primary
      (Keyword.functionWord.at l :: Symbol.leftParen.at l₁ :: (ps ++ Symbol.rightParen.at l₂ :: bs))
      (.function l (.mk 0 l st.file params body)) := by
  intro c c' hmove
  have hopen := hmove.advance rfl
  have hrest := hopen.advance rfl
  rw [List.append_cons] at hrest
  obtain ⟨c₁, hparams, hbody⟩ := hrest.split
  have hparams : commaList name .rightParen c.advance.2.advance.2 = (.ok params, c₁) :=
    hps _ _ _ _ hparams (.inl rfl)
  rw [primary, current_bind, hmove.current]
  show function st (levels st n) c = _
  rw [function, advance_bind, expect_bind_of_eq _ hopen.current, Action.bind_of_ok hparams,
    Action.bind_of_ok (hbs _ _ hbody), hmove.here]
  rfl

theorem reads_table {entries : List (Expr × Expr)} (l l₁ : Nat)
    (hts : Reads st n (.list .entry) ts entries) :
    Reads st n .primary (Symbol.leftBracket.at l :: (ts ++ [Symbol.rightBracket.at l₁]))
      (.table l entries) := by
  intro c c' hmove
  have hentries : commaList (entry (levels st n)) .rightBracket c.advance.2 = (.ok entries, c') :=
    hts _ _ _ _ (hmove.advance rfl) (.inr rfl)
  rw [primary, current_bind, hmove.current]
  show table (levels st n) c = _
  rw [table, advance_bind, Action.bind_of_ok hentries, hmove.here]
  rfl

theorem reads_paren (l l₁ : Nat) (hts : Reads st n (.item .expression) ts e) :
    Reads st n .primary (Symbol.leftParen.at l :: (ts ++ [Symbol.rightParen.at l₁])) e := by
  intro c c' hmove
  obtain ⟨c₁, hinside, hclose⟩ := (hmove.advance rfl).split
  have hend : c₁.current.EndsExpression := hclose.current ▸ ⟨rfl, rfl, rfl, rfl⟩
  have he : (levels st n).expression c.advance.2 = (.ok e, c₁) :=
    hts _ _ hinside hend
  rw [primary, current_bind, hmove.current]
  show parenthesized (levels st n) c = _
  rw [parenthesized, advance_bind, Action.bind_of_ok he, expect_bind_of_eq _ hclose.current,
    hclose.advance_eq rfl]
  rfl

theorem reads_bare (hts : Reads st n .primary ts e) : Reads st n .postfixed ts e := by
  intro c c' hmove
  exact Action.bind_of_ok (hts c c' hmove)

theorem reads_call {args : List Expr} (l l₁ : Nat) (hts : Reads st n .postfixed ts e)
    (hus : Reads st n (.list .expression) us args) :
    Reads st n .postfixed (ts ++ Symbol.leftParen.at l :: (us ++ [Symbol.rightParen.at l₁]))
      (.call l e args) := by
  intro c c' hmove
  obtain ⟨c₁, hhead, htail⟩ := hmove.split
  have hargs : commaList (levels st n).expression .rightParen c₁.advance.2 = (.ok args, c') :=
    hus _ _ _ _ (htail.advance rfl) (.inl rfl)
  rw [hts c c₁ hhead]
  refine iterate_again ?_ (htail.remaining_lt (by simp))
  rw [postfixTurn, current_bind, htail.current]
  show (advance >>= _) c₁ = _
  rw [advance_bind, Action.bind_of_ok hargs, htail.here]
  rfl

theorem reads_index {key : Expr} (l l₁ : Nat) (hts : Reads st n .postfixed ts e)
    (hus : Reads st n (.item .expression) us key) :
    Reads st n .postfixed (ts ++ Symbol.leftBracket.at l :: (us ++ [Symbol.rightBracket.at l₁]))
      (.index l e key) := by
  intro c c' hmove
  obtain ⟨c₁, hhead, htail⟩ := hmove.split
  obtain ⟨c₂, hinside, hclose⟩ := (htail.advance rfl).split
  have hend : c₂.current.EndsExpression := hclose.current ▸ ⟨rfl, rfl, rfl, rfl⟩
  have hkey : (levels st n).expression c₁.advance.2 = (.ok key, c₂) :=
    hus _ _ hinside hend
  rw [hts c c₁ hhead]
  refine iterate_again ?_ (htail.remaining_lt (by simp))
  rw [postfixTurn, current_bind, htail.current]
  show (advance >>= _) c₁ = _
  rw [advance_bind, Action.bind_of_ok hkey, expect_bind_of_eq _ hclose.current,
    hclose.advance_eq rfl, htail.here]
  rfl

theorem reads_unsigned (hfirst : Category.postfixed.startsWith ts = true)
    (hts : Reads st n .postfixed ts e) : Reads st n .signed ts e := by
  intro c c' hmove hend
  -- no primary expression starts with a sign, so none is taken off
  have hsign : sign? c.current = none := by
    cases ts with
    | nil => cases hfirst
    | cons t ts =>
      rw [hmove.current]
      exact sign?_of_startsPrimary hfirst
  rw [signed_of_none hsign, hts c c' hmove, iterate_postfixTurn_of_ends hend]

theorem reads_sign (l : Nat) (m : Symbol) (op : Sign) (htext : m.text = op.text)
    (hts : Reads st n .postfixed ts e) : Reads st n .signed (m.at l :: ts) (.unary l op e) := by
  intro c c' hmove hend
  have hsign : sign? c.current = some op := by
    rw [hmove.current]
    exact sign?_eq_some_iff.2 ⟨m, rfl, htext⟩
  have he : postfixed st (levels st n) c.advance.2 = (.ok e, c') := by
    rw [hts _ c' (hmove.advance rfl), iterate_postfixTurn_of_ends hend]
  rw [signed_of_some hsign, Action.bind_of_ok he, hmove.line]
  rfl

theorem reads_factor (hts : Reads st n .signed ts e) : Reads st n .product ts e := by
  intro c c' hmove hend
  exact Action.bind_of_ok (hts c c' hmove hend)

theorem reads_times (l : Nat) (m : Symbol) (op : ArithOp) (htext : m.text = op.text)
    (hkind : op = .mul ∨ op = .div) (hts : Reads st n .product ts e) (hus : Reads st n .signed us e') :
    Reads st n .product (ts ++ m.at l :: us) (.arith l op e e') := by
  intro c c' hmove hend
  obtain ⟨c₁, hleft, hright⟩ := hmove.split
  have hop : productOp? (m.at l).token = some op := productOp?_eq_some_iff.2 ⟨m, rfl, htext, hkind⟩
  have hmark : c₁.current.opensCall = false := by
    rw [hright.current]
    exact opensCall_of_productOp? hop
  rw [hts c c₁ hleft hmark]
  exact iterate_chainTurn_of_some hright hop
    (hus _ c' (hright.advance rfl) hend)

theorem reads_summand (hts : Reads st n .product ts e) : Reads st n .sum ts e := by
  intro c c' hmove hend hproduct
  have he : product st (levels st n) c = (.ok e, c') := by
    rw [hts c c' hmove hend, iterate_chainTurn_of_ends hproduct]
  exact Action.bind_of_ok he

theorem reads_plus (l : Nat) (m : Symbol) (op : ArithOp) (htext : m.text = op.text)
    (hkind : op = .add ∨ op = .sub) (hts : Reads st n .sum ts e) (hus : Reads st n .product us e') :
    Reads st n .sum (ts ++ m.at l :: us) (.arith l op e e') := by
  intro c c' hmove hend hproduct
  obtain ⟨c₁, hleft, hright⟩ := hmove.split
  have hop : sumOp? (m.at l).token = some op := sumOp?_eq_some_iff.2 ⟨m, rfl, htext, hkind⟩
  obtain ⟨hcall, hnot⟩ := hright.current ▸ follow_of_sumOp? hop
  have he' : product st (levels st n) c₁.advance.2 = (.ok e', c') := by
    rw [hus _ c' (hright.advance rfl) hend, iterate_chainTurn_of_ends hproduct]
  rw [hts c c₁ hleft hcall hnot]
  exact iterate_chainTurn_of_some hright hop he'

/-- An expression goes one level down. -/
theorem reads_single (hts : Reads st n .sum ts e) : Reads st (n + 1) (.item .expression) ts e := by
  intro c c' hmove hend
  have he : sum st (levels st n) c = (.ok e, c') := by
    rw [hts c c' hmove hend.call hend.product, iterate_chainTurn_of_ends hend.sum]
  show comparison st (levels st n) c = _
  rw [comparison, Action.bind_of_ok he, current_bind]
  simp only [hend.compare]
  rfl

theorem reads_compared (l : Nat) (m : Symbol) (op : CompareOp) (htext : m.text = op.text)
    (hts : Reads st n .sum ts e) (hus : Reads st n .sum us e') :
    Reads st (n + 1) (.item .expression) (ts ++ m.at l :: us) (.compare l op e e') := by
  intro c c' hmove hend
  obtain ⟨c₁, hleft, hright⟩ := hmove.split
  have hop : compareOp? c₁.current = some op := by
    rw [hright.current]
    exact compareOp?_eq_some_iff.2 ⟨m, rfl, htext⟩
  obtain ⟨hcall, hproduct, hsum⟩ := follow_of_compareOp? hop
  have he : sum st (levels st n) c = (.ok e, c₁) := by
    rw [hts c c₁ hleft hcall hproduct, iterate_chainTurn_of_ends hsum]
  have he' : sum st (levels st n) c₁.advance.2 = (.ok e', c') := by
    rw [hus _ c' (hright.advance rfl) hend.call hend.product,
      iterate_chainTurn_of_ends hend.sum]
  show comparison st (levels st n) c = _
  rw [comparison, Action.bind_of_ok he, current_bind]
  simp only [hop]
  rw [advance_bind, Action.bind_of_ok he', current_bind, hend.compare, hright.here]
  rfl

theorem reads_name (l : Nat) (s : String) : Reads st n (.item .name) [⟨.name s, l⟩] s := by
  intro c c' hmove _
  show name c = _
  rw [name, current_bind, hmove.current]
  show (advance >>= _) c = _
  rw [advance_bind, hmove.advance_eq rfl]
  rfl

theorem reads_entry {key value : Expr} (l : Nat) (hts : Reads st n (.item .expression) ts key)
    (hus : Reads st n (.item .expression) us value) :
    Reads st n (.item .entry) (ts ++ Symbol.colon.at l :: us) (key, value) := by
  intro c c' hmove hend
  obtain ⟨c₁, hleft, hright⟩ := hmove.split
  have hcolon : c₁.current.EndsExpression := hright.current ▸ ⟨rfl, rfl, rfl, rfl⟩
  have hkey : (levels st n).expression c = (.ok key, c₁) := hts c c₁ hleft hcolon
  have hvalue : (levels st n).expression c₁.advance.2 = (.ok value, c') :=
    hus _ c' (hright.advance rfl) hend
  show entry (levels st n) c = _
  rw [entry, Action.bind_of_ok hkey, expect_bind_of_eq _ hright.current, Action.bind_of_ok hvalue]
  rfl

/-! ### Lists -/

/-- The mark that closes a list ends its last item and is not taken for a comma. -/
theorem endsExpression_of_closing {closing : Symbol}
    (h : closing = .rightParen ∨ closing = .rightBracket) :
    (Token.symbol closing).EndsExpression ∧ closing ≠ .comma ∧
      (Token.symbol closing).startsExpression = false := by
  rcases h with rfl | rfl
  · exact ⟨⟨rfl, rfl, rfl, rfl⟩, by decide, by decide⟩
  · exact ⟨⟨rfl, rfl, rfl, rfl⟩, by decide, by decide⟩

theorem current_ne_closing {closing : Symbol} {k : Item}
    (h : closing = .rightParen ∨ closing = .rightBracket)
    (hfirst : (Category.several k).startsWith us = true) (hmove : c.Moves (us ++ ts) c') :
    c.current ≠ .symbol closing := by
  cases us with
  | nil => cases hfirst
  | cons t us =>
    intro hcurrent
    have hstarts : (Token.symbol closing).startsExpression = true := by
      rw [← hcurrent, hmove.current]
      exact hfirst
    rw [(endsExpression_of_closing h).2.2] at hstarts
    cases hstarts

theorem reads_one {k : Item} {a : k.Tree} (hts : Reads st n (.item k) ts a) :
    Reads st n (.several k) ts [a] := by
  intro c c' closing line items hmove hclosing
  obtain ⟨c₁, hitem, hclose⟩ := hmove.split
  obtain ⟨hend, hcomma, -⟩ := endsExpression_of_closing hclosing
  have ha := hts c c₁ hitem (hclose.current ▸ hend)
  rw [iterate_finish (commaList_turn_of_closing ha hclose.current hcomma),
    hclose.advance_eq rfl, List.reverse_cons]

theorem reads_more {k : Item} {a : k.Tree} {as : List k.Tree} (l : Nat)
    (hfirst : (Category.several k).startsWith us = true) (hts : Reads st n (.item k) ts a)
    (hus : Reads st n (.several k) us as) :
    Reads st n (.several k) (ts ++ Symbol.comma.at l :: us) (a :: as) := by
  intro c c' closing line items hmove hclosing
  rw [List.append_assoc, List.cons_append] at hmove
  obtain ⟨c₁, hitem, hcomma⟩ := hmove.split
  have hend : c₁.current.EndsExpression := hcomma.current ▸ ⟨rfl, rfl, rfl, rfl⟩
  have ha := hts c c₁ hitem hend
  -- another item starts behind the comma, so the comma is not a trailing one
  have hrest := hcomma.advance rfl
  have hnext := current_ne_closing hclosing hfirst hrest
  have hlt : c₁.advance.2.remaining < c.remaining := by
    have h₁ := hitem.remaining
    have h₂ := hcomma.remaining
    have h₃ := hrest.remaining
    simp only [List.length_cons] at h₂
    omega
  rw [iterate_again (commaList_turn_of_comma ha hcomma.current hnext) hlt,
    hus _ c' closing line (a :: items) hrest hclosing]
  simp

theorem reads_noItems {k : Item} : Reads st n (.list k) [] [] := by
  intro c c' closing line hmove _
  rw [commaList_of_eq (Cursor.Moves.current hmove), Cursor.Moves.advance_eq hmove rfl]

theorem reads_items {k : Item} {as : List k.Tree}
    (hfirst : (Category.several k).startsWith ts = true) (hts : Reads st n (.several k) ts as) :
    Reads st n (.list k) ts as := by
  intro c c' closing line hmove hclosing
  rw [commaList_of_ne (current_ne_closing hclosing hfirst hmove),
    hts c c' closing line [] hmove hclosing]
  rfl

/-! ### Statements -/

theorem condition_of_moves {l₁ l₂ : Nat}
    (hcs : Reads st n (.item .expression) cs e)
    (hmove : c.Moves (Symbol.leftParen.at l₁ :: (cs ++ [Symbol.rightParen.at l₂])) c') :
    condition (levels st n) c = (.ok e, c') := by
  obtain ⟨c₁, hinside, hclose⟩ := (hmove.advance rfl).split
  have hend : c₁.current.EndsExpression := hclose.current ▸ ⟨rfl, rfl, rfl, rfl⟩
  have he : (levels st n).expression c.advance.2 = (.ok e, c₁) := hcs _ _ hinside hend
  rw [condition, expect_bind_of_eq _ hmove.current, Action.bind_of_ok he,
    expect_bind_of_eq _ hclose.current, hclose.advance_eq rfl]
  rfl

/-- The tokens of a condition and a block, cut behind the condition. -/
theorem split_condition {l₁ l₂ : Nat}
    (h : c.Moves (Symbol.leftParen.at l₁ :: (cs ++ Symbol.rightParen.at l₂ :: ts)) c') :
    ∃ c₁, c.Moves (Symbol.leftParen.at l₁ :: (cs ++ [Symbol.rightParen.at l₂])) c₁ ∧
      c₁.Moves ts c' := by
  rw [List.append_cons, ← List.cons_append] at h
  exact h.split

theorem reads_cond {b : Block} (l l₁ l₂ : Nat) (hcs : Reads st n (.item .expression) cs e)
    (hts : Reads st n .block ts b) :
    Reads st n .statement
      (Keyword.ifWord.at l :: Symbol.leftParen.at l₁ :: (cs ++ Symbol.rightParen.at l₂ :: ts))
      (.cond l e b none) := by
  intro c c' hmove hend
  obtain ⟨c₁, hcondition, hblock⟩ := split_condition (hmove.advance rfl)
  -- the semicolon behind the statement is what tells that there is no second block
  have helse : c'.current ≠ .keyword .elseWord := by
    rw [hend]
    simp
  rw [statement, current_bind, hmove.current]
  show cond (levels st n) c = _
  rw [cond, advance_bind, Action.bind_of_ok (condition_of_moves hcs hcondition),
    Action.bind_of_ok (hts c₁ c' hblock), eatWord_bind_of_ne _ helse, hmove.here]
  rfl

theorem reads_condElse {b b' : Block} (l l₁ l₂ l₃ : Nat)
    (hcs : Reads st n (.item .expression) cs e) (hts : Reads st n .block ts b)
    (hus : Reads st n .block us b') :
    Reads st n .statement
      (Keyword.ifWord.at l :: Symbol.leftParen.at l₁ ::
        (cs ++ Symbol.rightParen.at l₂ :: (ts ++ Keyword.elseWord.at l₃ :: us)))
      (.cond l e b (some b')) := by
  intro c c' hmove _
  obtain ⟨c₁, hcondition, hblocks⟩ := split_condition (hmove.advance rfl)
  obtain ⟨c₂, hyes, hno⟩ := hblocks.split
  rw [statement, current_bind, hmove.current]
  show cond (levels st n) c = _
  rw [cond, advance_bind, Action.bind_of_ok (condition_of_moves hcs hcondition),
    Action.bind_of_ok (hts c₁ c₂ hyes), eatWord_bind_of_eq _ hno.current, if_pos rfl,
    Action.bind_of_ok (hus _ c' (hno.advance rfl)), hmove.here]
  rfl

theorem reads_loop {b : Block} (l l₁ l₂ : Nat) (hcs : Reads st n (.item .expression) cs e)
    (hts : Reads st n .block ts b) :
    Reads st n .statement
      (Keyword.loopWord.at l :: Symbol.leftParen.at l₁ :: (cs ++ Symbol.rightParen.at l₂ :: ts))
      (.loop l e b) := by
  intro c c' hmove _
  obtain ⟨c₁, hcondition, hblock⟩ := split_condition (hmove.advance rfl)
  rw [statement, current_bind, hmove.current]
  show loop (levels st n) c = _
  rw [loop, advance_bind, Action.bind_of_ok (condition_of_moves hcs hcondition),
    Action.bind_of_ok (hts c₁ c' hblock), hmove.here]
  rfl

theorem reads_ret (l : Nat) (hts : Reads st n (.item .expression) ts e) :
    Reads st n .statement (Keyword.returnWord.at l :: ts) (.ret l e) := by
  intro c c' hmove hend
  have he : (levels st n).expression c.advance.2 = (.ok e, c') :=
    hts _ c' (hmove.advance rfl) (hend ▸ ⟨rfl, rfl, rfl, rfl⟩)
  rw [statement, current_bind, hmove.current]
  show ret (levels st n) c = _
  rw [ret, advance_bind, Action.bind_of_ok he, hmove.here]
  rfl

theorem reads_get {file : String} {program : Program} (l l₁ : Nat)
    (hfetch : st.fetch l file = .ok program) :
    Reads st n .statement [Keyword.getWord.at l, ⟨.text file, l₁⟩] (.get l file program) := by
  intro c c' hmove _
  have htarget := hmove.advance rfl
  rw [statement, current_bind, hmove.current]
  show get st c = _
  rw [get, advance_bind, advance_bind, hmove.here, htarget.here, htarget.advance_eq rfl]
  exact Action.bind_of_ok (Action.ofExcept_eq_ok_iff.2 ⟨hfetch, rfl⟩)

theorem reads_expr {t : Located} (hfirst : t.token.startsExpression = true)
    (hts : Reads st n (.item .expression) (t :: ts) e) :
    Reads st n .statement (t :: ts) (.expr t.line e) := by
  intro c c' hmove hend
  have he : (levels st n).expression c = (.ok e, c') :=
    hts c c' hmove (hend ▸ ⟨rfl, rfl, rfl, rfl⟩)
  rw [statement_of_startsExpression (hmove.current ▸ hfirst), simple, line_bind,
    Action.bind_of_ok he, eat_bind_of_ne _ (by simp [hend]), if_neg (by simp),
    eat_bind_of_ne _ (by simp [hend]), if_neg (by simp), hmove.line]
  rfl

theorem reads_assign {t : Located} {value : Expr} (l : Nat) (how : Assignment)
    (hfirst : t.token.startsExpression = true)
    (hts : Reads st n (.item .expression) (t :: ts) e)
    (hus : Reads st n (.item .expression) us value) :
    Reads st n .statement (t :: (ts ++ how.mark.at l :: us)) (.assign t.line how e value) := by
  intro c c' hmove hend
  have hmove' := hmove
  rw [← List.cons_append] at hmove'
  obtain ⟨c₁, hleft, hright⟩ := hmove'.split
  have hmark : c₁.current.EndsExpression := by
    rw [hright.current]
    cases how <;> exact ⟨rfl, rfl, rfl, rfl⟩
  have he : (levels st n).expression c = (.ok e, c₁) :=
    hts c c₁ hleft hmark
  have hvalue : (levels st n).expression c₁.advance.2 = (.ok value, c') :=
    hus _ c' (hright.advance rfl) (hend ▸ ⟨rfl, rfl, rfl, rfl⟩)
  rw [statement_of_startsExpression (hmove.current ▸ hfirst), simple, line_bind,
    Action.bind_of_ok he, hmove.line]
  cases how with
  | define =>
    have hcurrent : c₁.current = .symbol .assign := hright.current
    rw [eat_bind_of_eq _ hcurrent, if_pos rfl, Action.bind_of_ok hvalue]
    rfl
  | reassign =>
    have hcurrent : c₁.current = .symbol .refAssign := hright.current
    rw [eat_bind_of_ne _ (by simp [hcurrent]), if_neg (by simp), eat_bind_of_eq _ hcurrent,
      if_pos rfl, Action.bind_of_ok hvalue]
    rfl

theorem reads_nested {b : Block} (hfirst : Category.block.startsWith ts = true)
    (hts : Reads st n .block ts b) : Reads st n .statement ts (.block b) := by
  intro c c' hmove _
  have hbrace : c.current = .symbol .leftBrace := by
    cases ts with
    | nil => cases hfirst
    | cons t ts =>
      rw [hmove.current]
      have hstarts : t.token.startsBlock = true := hfirst
      unfold Token.startsBlock at hstarts
      split at hstarts
      · assumption
      · cases hstarts
  rw [statement, current_bind, hbrace]
  show ((levels st n).block >>= _) c = _
  rw [Action.bind_of_ok (hts c c' hmove)]
  rfl

theorem reads_empty : Reads st n .statements [] [] := by
  intro c c' β turn stmts hmove _
  obtain rfl := Cursor.Moves.eq_of_nil hmove
  rfl

theorem reads_followed {s : Stmt} {ss : List Stmt} (l : Nat)
    (hfirst : Category.statement.startsWith ts = true) (hts : Reads st n .statement ts s)
    (hus : Reads st n .statements us ss) :
    Reads st n .statements (ts ++ Symbol.semicolon.at l :: us) (s :: ss) := by
  intro c c' β turn stmts hmove hturn
  have hstarts : c.current.startsStatement = true := by
    cases ts with
    | nil => cases hfirst
    | cons t ts =>
      rw [hmove.current]
      exact hfirst
  obtain ⟨c₁, hstatement, hrest⟩ := hmove.split
  have hs := hts c c₁ hstatement hrest.current
  have hone : turn stmts c = (.ok (.again (s :: stmts)), c₁.advance.2) := by
    rw [hturn stmts c hstarts, closedStatement, Action.bind_of_ok
      (Action.bind_of_ok hs |>.trans (expect_bind_of_eq _ hrest.current))]
    rfl
  have hlt : c₁.advance.2.remaining < c.remaining := by
    have h₁ := hmove.remaining
    have h₂ := (hrest.advance rfl).remaining
    simp only [List.length_append, List.length_cons] at h₁
    omega
  rw [iterate_again hone hlt, hus _ c' β turn _ (hrest.advance rfl) hturn,
    List.reverse_cons, List.append_assoc, List.singleton_append]

theorem readsStatements_blockTurn (inner : Inner) :
    ReadsStatements st inner (blockTurn st inner) := by
  intro stmts c hstarts
  have hbrace : c.current ≠ .symbol .rightBrace := by
    intro hcurrent
    rw [hcurrent] at hstarts
    cases hstarts
  rw [blockTurn, eat_bind_of_ne _ hbrace, if_neg (by simp), atEnd_bind, Cursor.atEnd,
    isEnd_of_startsStatement hstarts, if_neg (by simp)]

/-- A block goes one level down. -/
theorem reads_block {ss : List Stmt} (l l₁ : Nat) (hts : Reads st n .statements ts ss) :
    Reads st (n + 1) .block (Symbol.leftBrace.at l :: (ts ++ [Symbol.rightBrace.at l₁])) (.mk l ss) := by
  intro c c' hmove
  obtain ⟨c₁, hinside, hclose⟩ := (hmove.advance rfl).split
  have hlast : blockTurn st (levels st n) (ss.reverse ++ []) c₁ = (.ok (.finish ss), c') := by
    rw [blockTurn, eat_bind_of_eq _ hclose.current, if_pos rfl, hclose.advance_eq rfl]
    simp
  have hss : iterate (blockTurn st (levels st n)) [] c.advance.2 = (.ok ss, c') := by
    rw [hts _ c₁ _ _ [] hinside (readsStatements_blockTurn _), iterate_finish hlast]
  show blockBody st (levels st n) c = _
  rw [blockBody, line_bind, expect_bind_of_eq _ hmove.current, Action.bind_of_ok hss, hmove.line]
  rfl

theorem readsStatements_programTurn :
    ReadsStatements st (outermost st) (programTurn st (outermost st)) := by
  intro stmts c hstarts
  rw [programTurn, atEnd_bind, Cursor.atEnd, isEnd_of_startsStatement hstarts, if_neg (by simp)]

end Rules

/-! ### Derivations are read -/

variable {st : Setting} {ts : List Located}

/-- The levels that the tokens of a category take besides one for each of them. -/
def Category.base : Category → Nat
  | .primary | .postfixed | .signed | .product | .sum => 0
  | .item _ | .several _ | .list _ | .block | .statement | .statements => 1

theorem reads_of_derives {k : Category} {a : k.Tree} (h : Derives st.file st.fetch k ts a) {n : Nat}
    (hn : Category.base k + ts.length ≤ n) : Reads st n k ts a := by
  induction h generalizing n with
  | number l x => exact reads_literal (t := ⟨.number x, l⟩) rfl
  | bool l b => exact reads_literal (t := ⟨.bool b, l⟩) rfl
  | text l s => exact reads_literal (t := ⟨.text s, l⟩) rfl
  | var l s => exact reads_literal (t := ⟨.name s, l⟩) rfl
  | function l l₁ l₂ _ _ hps hbs =>
    simp only [Category.base, List.length_cons, List.length_append] at hn hps hbs
    exact reads_function l l₁ l₂ (hps (by omega)) (hbs (by omega))
  | table l l₁ _ hts =>
    simp only [Category.base, List.length_cons, List.length_append] at hn hts
    exact reads_table l l₁ (hts (by omega))
  | paren l l₁ _ hts =>
    simp only [Category.base, List.length_cons, List.length_append] at hn hts
    exact reads_paren l l₁ (hts (by omega))
  | bare _ hts => exact reads_bare (hts hn)
  | call l l₁ _ _ hts hus =>
    simp only [Category.base, List.length_cons, List.length_append] at hn hts hus
    exact reads_call l l₁ (hts (by omega)) (hus (by omega))
  | index l l₁ _ _ hts hus =>
    simp only [Category.base, List.length_cons, List.length_append] at hn hts hus
    exact reads_index l l₁ (hts (by omega)) (hus (by omega))
  | unsigned h hts => exact reads_unsigned h.startsWith (hts hn)
  | sign l m op htext _ hts =>
    simp only [Category.base, List.length_cons] at hn hts
    exact reads_sign l m op htext (hts (by omega))
  | factor _ hts => exact reads_factor (hts hn)
  | times l m op htext hkind _ _ hts hus =>
    simp only [Category.base, List.length_cons, List.length_append] at hn hts hus
    exact reads_times l m op htext hkind (hts (by omega)) (hus (by omega))
  | summand _ hts => exact reads_summand (hts hn)
  | plus l m op htext hkind _ _ hts hus =>
    simp only [Category.base, List.length_cons, List.length_append] at hn hts hus
    exact reads_plus l m op htext hkind (hts (by omega)) (hus (by omega))
  | single _ hts =>
    simp only [Category.base] at hn hts
    obtain ⟨n, rfl⟩ : ∃ m, n = m + 1 := ⟨n - 1, by omega⟩
    exact reads_single (hts (by omega))
  | compared l m op htext _ _ hts hus =>
    simp only [Category.base, List.length_cons, List.length_append] at hn hts hus
    obtain ⟨n, rfl⟩ : ∃ m, n = m + 1 := ⟨n - 1, by omega⟩
    exact reads_compared l m op htext (hts (by omega)) (hus (by omega))
  | name l s => exact reads_name l s
  | entry l _ _ hts hus =>
    simp only [Category.base, List.length_cons, List.length_append] at hn hts hus
    exact reads_entry l (hts (by omega)) (hus (by omega))
  | one _ hts => exact reads_one (hts hn)
  | more l _ h hts hus =>
    simp only [Category.base, List.length_cons, List.length_append] at hn hts hus
    exact reads_more l h.startsWith (hts (by omega)) (hus (by omega))
  | noItems => exact reads_noItems
  | items h hts => exact reads_items h.startsWith (hts hn)
  | block l l₁ _ hts =>
    simp only [Category.base, List.length_cons, List.length_append] at hn hts
    obtain ⟨n, rfl⟩ : ∃ m, n = m + 1 := ⟨n - 1, by omega⟩
    exact reads_block l l₁ (hts (by omega))
  | nested h hts => exact reads_nested h.startsWith (hts hn)
  | get l l₁ hfetch => exact reads_get l l₁ hfetch
  | cond l l₁ l₂ _ _ hcs hts =>
    simp only [Category.base, List.length_cons, List.length_append] at hn hcs hts
    exact reads_cond l l₁ l₂ (hcs (by omega)) (hts (by omega))
  | condElse l l₁ l₂ l₃ _ _ _ hcs hts hus =>
    simp only [Category.base, List.length_cons, List.length_append] at hn hcs hts hus
    exact reads_condElse l l₁ l₂ l₃ (hcs (by omega)) (hts (by omega)) (hus (by omega))
  | loop l l₁ l₂ _ _ hcs hts =>
    simp only [Category.base, List.length_cons, List.length_append] at hn hcs hts
    exact reads_loop l l₁ l₂ (hcs (by omega)) (hts (by omega))
  | ret l _ hts =>
    simp only [Category.base, List.length_cons] at hn hts
    exact reads_ret l (hts (by omega))
  | expr h hts => exact reads_expr h.startsWith (hts hn)
  | assign l how h _ hts hus =>
    simp only [Category.base, List.length_cons, List.length_append] at hn hts hus
    exact reads_assign l how h.startsWith (hts (by omega)) (hus (by omega))
  | empty => exact reads_empty
  | followed l h _ hts hus =>
    simp only [Category.base, List.length_cons, List.length_append] at hn hts hus
    exact reads_followed l h.startsWith (hts (by omega)) (hus (by omega))

theorem program_of_reads {p : Program} (h : Reads st st.limits.nesting .statements ts p)
    (hmove : c.Moves ts c') (hend : c'.atEnd = true) : program st c = (.ok p, c') := by
  have hlast : programTurn st (outermost st) (p.reverse ++ []) c' = (.ok (.finish p), c') := by
    rw [programTurn, atEnd_bind, hend, if_pos rfl]
    simp
  rw [program, programBody, h c c' _ _ [] hmove readsStatements_programTurn, iterate_finish hlast]

/-- A derivable program is accepted if there are more levels than tokens. -/
theorem program_of_derives {p : Program} (h : Derives st.file st.fetch .statements ts p)
    (hn : ts.length < st.limits.nesting) (hmove : c.Moves ts c') (hend : c'.atEnd = true) :
    program st c = (.ok p, c') := by
  refine program_of_reads (reads_of_derives h ?_) hmove hend
  simp only [Category.base]
  omega

end Parser

end TableScript
