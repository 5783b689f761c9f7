import TableScript.Program.Statement
import TableScript.Proofs.Parsing.Cursor
import TableScript.Proofs.Parsing.Grammar

/-!
# What the parser accepts is derivable

`Sound x G` says of a parser that wherever it succeeds it has moved over tokens that are related to
its result by `G`.  Each parser of the grammar is sound for its category, given that the parsers of
the next level of nesting are; the induction is then on the levels (`sound_levels`).  Nothing is
asked of the limits: a parser that runs out of levels fails, and soundness is about success only.

The loops carry an invariant each.  Sums, products and calls grow to the left, as their derivations
do, so the invariant is a derivation of what was read so far.  Lists and statements are derived from
the right; there the invariant says what the items read so far do to a derivation of the rest.
-/

namespace TableScript.Parser

variable {α β : Type} {c c' : Cursor}

/-- Wherever the parser succeeds, `G` relates the tokens it took to its result. -/
def Sound (x : Parser α) (G : List Located → α → Prop) : Prop :=
  ∀ c a c', c.Closed → x c = (.ok a, c') → ∃ used, c.Moves used c' ∧ G used a

/-- What was read between two cursors may stand before anything that `G` relates; `items` are its
results in reverse. -/
def Prepends (G : List Located → List α → Prop) (c c' : Cursor) (items : List α) : Prop :=
  ∃ used, c.Moves used c' ∧ ∀ ts as, G ts as → G (used ++ ts) (items.reverse ++ as)

theorem Prepends.nil (G : List Located → List α → Prop) (c : Cursor) : Prepends G c c [] :=
  ⟨[], .refl c, fun _ _ h => h⟩

theorem Prepends.cons {G : List Located → List α → Prop} {c'' : Cursor} {items : List α} {a : α}
    {us : List Located} (h : Prepends G c c' items) (hmove : c'.Moves us c'')
    (hone : ∀ ts as, G ts as → G (us ++ ts) (a :: as)) : Prepends G c c'' (a :: items) := by
  obtain ⟨used, hused, hG⟩ := h
  refine ⟨used ++ us, hused.trans hmove, fun ts as hts => ?_⟩
  simpa using hG _ _ (hone ts as hts)

/-! ### Marks, names and lists -/

theorem expect_ok {m : Symbol} {u : Unit} (hc : c.Closed) (h : expect m c = (.ok u, c')) :
    ∃ line, c.Moves [m.at line] c' := by
  by_cases hm : c.current = .symbol m
  · rw [expect_of_eq hm] at h
    obtain rfl : c.advance.2 = c' := (Prod.mk.inj h).2
    exact ⟨c.line, c.moves_of_current hc hm rfl⟩
  · rw [expect_of_ne hm] at h
    cases h

/-- What a turn of a list that succeeds has found behind its item. -/
theorem commaList_turn_ok {item : Parser α} {closing : Symbol} {items : List α}
    {r : Turn (List α) (List α)} (h : commaList.turn item closing items c = (.ok r, c')) :
    ∃ a c₁, item c = (.ok a, c₁) ∧ c' = c₁.advance.2 ∧
      (c₁.current = .symbol .comma ∧ r = .again (a :: items) ∨
        c₁.current = .symbol closing ∧ r = .finish (a :: items).reverse) := by
  obtain ⟨a, c₁, hitem, h⟩ := Action.bind_eq_ok_iff.1 h
  refine ⟨a, c₁, hitem, ?_⟩
  by_cases hcomma : c₁.current = .symbol .comma
  · rw [eat_bind_of_eq _ hcomma, if_pos rfl, current_bind] at h
    split at h
    · cases h
    · obtain ⟨rfl, rfl⟩ : .again (a :: items) = r ∧ c₁.advance.2 = c' := by simpa using h
      exact ⟨rfl, .inl ⟨hcomma, rfl⟩⟩
  · rw [eat_bind_of_ne _ hcomma, if_neg (by simp)] at h
    by_cases hclosing : c₁.current = .symbol closing
    · rw [eat_bind_of_eq _ hclosing, if_pos rfl] at h
      obtain ⟨rfl, rfl⟩ : .finish (a :: items).reverse = r ∧ c₁.advance.2 = c' := by simpa using h
      exact ⟨rfl, .inr ⟨hclosing, rfl⟩⟩
    · rw [eat_bind_of_ne _ hclosing, if_neg (by simp)] at h
      cases h

section Grammar

variable {file : Option String} {fetch : Nat → String → Except Error Program}

theorem sound_name : Sound name (Derives file fetch (.item .name)) := by
  intro c s c' hc h
  rw [name, current_bind] at h
  generalize hcurrent : c.current = tok at h
  split at h
  · next s' =>
    rw [advance_bind] at h
    obtain ⟨rfl, rfl⟩ : s' = s ∧ c.advance.2 = c' := by simpa using h
    exact ⟨_, c.moves_of_current hc hcurrent rfl, .name c.line s'⟩
  · cases h

/-- A list with the mark that closes it. -/
theorem sound_commaList (k : Item) {item : Parser k.Tree}
    (hitem : Sound item (Derives file fetch (.item k))) (closing : Symbol) :
    Sound (commaList item closing) fun used as =>
      ∃ ts line, used = ts ++ [closing.at line] ∧ Derives file fetch (.list k) ts as := by
  intro c as c' hc h
  by_cases hclosing : c.current = .symbol closing
  · rw [commaList_of_eq hclosing] at h
    obtain ⟨rfl, rfl⟩ : [] = as ∧ c.advance.2 = c' := by simpa using h
    exact ⟨_, c.moves_of_current hc hclosing rfl, [], c.line, rfl, .noItems⟩
  · rw [commaList_of_ne hclosing] at h
    have hagain : ∀ items c₁ items' c₂, Prepends (Derives file fetch (.several k)) c c₁ items →
        commaList.turn item closing items c₁ = (.ok (.again items'), c₂) →
          Prepends (Derives file fetch (.several k)) c c₂ items' := by
      intro items c₁ items' c₂ hread hturn
      have hc₁ : c₁.Closed := hread.choose_spec.1.closed hc
      obtain ⟨a, c₃, ha, rfl, ⟨hcomma, hr⟩ | ⟨-, hr⟩⟩ := commaList_turn_ok hturn
      · obtain ⟨ts, hmove, hts⟩ := hitem _ _ _ hc₁ ha
        cases hr
        refine hread.cons (hmove.trans (c₃.moves_of_current (hmove.closed hc₁) hcomma rfl)) ?_
        intro us as hus
        simpa using Derives.more c₃.line hts hus
      · cases hr
    obtain ⟨items, c₁, ⟨used, hused, hextend⟩, hturn⟩ := iterate_ok hagain (.nil _ c) h
    obtain ⟨a, c₂, ha, rfl, ⟨-, hr⟩ | ⟨hclosing, hr⟩⟩ := commaList_turn_ok hturn
    · cases hr
    · obtain ⟨ts, hmove, hts⟩ := hitem _ _ _ (hused.closed hc) ha
      have hstep := c₂.moves_of_current (hmove.closed (hused.closed hc)) hclosing rfl
      obtain rfl : (a :: items).reverse = as := (Turn.finish.inj hr).symm
      refine ⟨_, hused.trans (hmove.trans hstep), used ++ ts, c₂.line, by simp, .items ?_⟩
      simpa using hextend ts [a] (.one hts)

end Grammar

/-! ### Expressions -/

/-- The parsers of a level of nesting are sound. -/
structure InnerSound (st : Setting) (inner : Inner) : Prop where
  expression : Sound inner.expression (Derives st.file st.fetch (.item .expression))
  block : Sound inner.block (Derives st.file st.fetch .block)

section Levels

variable {st : Setting} {inner : Inner} (hinner : InnerSound st inner)

include hinner

theorem sound_function {e : Expr} (hc : c.Closed) (hcurrent : c.current = .keyword .functionWord)
    (h : function st inner c = (.ok e, c')) :
    ∃ used, c.Moves used c' ∧ Derives st.file st.fetch .primary used e := by
  rw [function, advance_bind] at h
  have hword := c.moves_of_current hc hcurrent rfl
  have hc₁ := hword.closed hc
  obtain ⟨_, c₂, hparen, h⟩ := Action.bind_eq_ok_iff.1 h
  obtain ⟨l₁, hparen⟩ := expect_ok hc₁ hparen
  have hc₂ := hparen.closed hc₁
  obtain ⟨params, c₃, hparams, h⟩ := Action.bind_eq_ok_iff.1 h
  have hname : Sound name (Derives st.file st.fetch (.item .name)) := sound_name
  obtain ⟨_, hparams, ps, l₂, rfl, hps⟩ := sound_commaList .name hname .rightParen _ _ _ hc₂ hparams
  obtain ⟨body, c₄, hbody, h⟩ := Action.bind_eq_ok_iff.1 h
  obtain ⟨bs, hbody, hbs⟩ := hinner.block _ _ _ (hparams.closed hc₂) hbody
  obtain ⟨rfl, rfl⟩ : _ = e ∧ c₄ = c' := by simpa using h
  refine ⟨_, hword.trans (hparen.trans (hparams.trans hbody)), ?_⟩
  simpa using Derives.function c.line l₁ l₂ hps hbs

theorem sound_entry : Sound (entry inner) (Derives st.file st.fetch (.item .entry)) := by
  intro c e c' hc h
  obtain ⟨key, c₁, hkey, h⟩ := Action.bind_eq_ok_iff.1 h
  obtain ⟨ts, hkey, hts⟩ := hinner.expression _ _ _ hc hkey
  obtain ⟨_, c₂, hcolon, h⟩ := Action.bind_eq_ok_iff.1 h
  obtain ⟨l, hcolon⟩ := expect_ok (hkey.closed hc) hcolon
  obtain ⟨value, c₃, hvalue, h⟩ := Action.bind_eq_ok_iff.1 h
  obtain ⟨us, hvalue, hus⟩ := hinner.expression _ _ _ (hcolon.closed (hkey.closed hc)) hvalue
  obtain ⟨rfl, rfl⟩ : (key, value) = e ∧ c₃ = c' := by simpa using h
  refine ⟨_, hkey.trans (hcolon.trans hvalue), ?_⟩
  simpa using Derives.entry l hts hus

theorem sound_table {e : Expr} (hc : c.Closed) (hcurrent : c.current = .symbol .leftBracket)
    (h : table inner c = (.ok e, c')) :
    ∃ used, c.Moves used c' ∧ Derives st.file st.fetch .primary used e := by
  rw [table, advance_bind] at h
  have hbracket := c.moves_of_current hc hcurrent rfl
  obtain ⟨entries, c₁, hentries, h⟩ := Action.bind_eq_ok_iff.1 h
  obtain ⟨_, hentries, ts, l₁, rfl, hts⟩ :=
    sound_commaList .entry (sound_entry hinner) .rightBracket _ _ _ (hbracket.closed hc)
      hentries
  obtain ⟨rfl, rfl⟩ : _ = e ∧ c₁ = c' := by simpa using h
  refine ⟨_, hbracket.trans hentries, ?_⟩
  simpa using Derives.table c.line l₁ hts

theorem sound_parenthesized {e : Expr} (hc : c.Closed) (hcurrent : c.current = .symbol .leftParen)
    (h : parenthesized inner c = (.ok e, c')) :
    ∃ used, c.Moves used c' ∧ Derives st.file st.fetch .primary used e := by
  rw [parenthesized, advance_bind] at h
  have hparen := c.moves_of_current hc hcurrent rfl
  obtain ⟨e', c₁, he, h⟩ := Action.bind_eq_ok_iff.1 h
  obtain ⟨ts, he, hts⟩ := hinner.expression _ _ _ (hparen.closed hc) he
  obtain ⟨_, c₂, hclose, h⟩ := Action.bind_eq_ok_iff.1 h
  obtain ⟨l₁, hclose⟩ := expect_ok (he.closed (hparen.closed hc)) hclose
  obtain ⟨rfl, rfl⟩ : e' = e ∧ c₂ = c' := by simpa using h
  refine ⟨_, hparen.trans (he.trans hclose), ?_⟩
  simpa using Derives.paren c.line l₁ hts

omit hinner in
/-- A token that is an expression by itself. -/
theorem sound_literal {make : Nat → Expr} {tok : Token} {e : Expr} (hc : c.Closed)
    (hcurrent : c.current = tok) (htok : tok.isEnd = false)
    (hmake : Derives st.file st.fetch .primary [⟨tok, c.line⟩] (make c.line))
    (h : literal make c = (.ok e, c')) :
    ∃ used, c.Moves used c' ∧ Derives st.file st.fetch .primary used e := by
  rw [literal, advance_bind] at h
  obtain ⟨rfl, rfl⟩ : make c.line = e ∧ c.advance.2 = c' := by simpa using h
  exact ⟨_, c.moves_of_current hc hcurrent htok, hmake⟩

theorem sound_primary : Sound (primary st inner) (Derives st.file st.fetch .primary) := by
  intro c e c' hc h
  rw [primary, current_bind] at h
  generalize hcurrent : c.current = tok at h
  split at h
  · exact sound_literal hc hcurrent rfl (.number _ _) h
  · exact sound_literal hc hcurrent rfl (.bool _ _) h
  · exact sound_literal hc hcurrent rfl (.text _ _) h
  · exact sound_literal hc hcurrent rfl (.var _ _) h
  · exact sound_function hinner hc hcurrent h
  · exact sound_table hinner hc hcurrent h
  · exact sound_parenthesized hinner hc hcurrent h
  · cases h
  · cases h

/-- One call or index more. -/
theorem postfixTurn_again {e e' : Expr} (hc : c.Closed)
    (h : postfixTurn inner e c = (.ok (.again e'), c')) :
    ∃ us, us ≠ [] ∧ c.Moves us c' ∧ ∀ ts, Derives st.file st.fetch .postfixed ts e →
      Derives st.file st.fetch .postfixed (ts ++ us) e' := by
  rw [postfixTurn, current_bind] at h
  generalize hcurrent : c.current = tok at h
  split at h
  · rw [advance_bind] at h
    have hparen := c.moves_of_current hc hcurrent rfl
    obtain ⟨args, c₁, hargs, h⟩ := Action.bind_eq_ok_iff.1 h
    obtain ⟨_, hargs, us, l₁, rfl, hus⟩ :=
      sound_commaList .expression hinner.expression .rightParen _ _ _ (hparen.closed hc) hargs
    obtain ⟨rfl, rfl⟩ : _ = e' ∧ c₁ = c' := by simpa using h
    exact ⟨_, by simp, hparen.trans hargs, fun ts hts => Derives.call c.line l₁ hts hus⟩
  · rw [advance_bind] at h
    have hbracket := c.moves_of_current hc hcurrent rfl
    obtain ⟨key, c₁, hkey, h⟩ := Action.bind_eq_ok_iff.1 h
    obtain ⟨us, hkey, hus⟩ := hinner.expression _ _ _ (hbracket.closed hc) hkey
    obtain ⟨_, c₂, hclose, h⟩ := Action.bind_eq_ok_iff.1 h
    obtain ⟨l₁, hclose⟩ := expect_ok (hkey.closed (hbracket.closed hc)) hclose
    obtain ⟨rfl, rfl⟩ : _ = e' ∧ c₂ = c' := by simpa using h
    refine ⟨_, by simp, hbracket.trans (hkey.trans hclose), fun ts hts => ?_⟩
    exact Derives.index c.line l₁ hts hus
  · cases h

omit hinner in
theorem postfixTurn_finish {e e' : Expr} (h : postfixTurn inner e c = (.ok (.finish e'), c')) :
    e' = e ∧ c' = c := by
  rw [postfixTurn, current_bind] at h
  generalize c.current = tok at h
  split at h
  · rw [advance_bind] at h
    obtain ⟨_, _, _, h⟩ := Action.bind_eq_ok_iff.1 h
    cases h
  · rw [advance_bind] at h
    obtain ⟨_, _, _, h⟩ := Action.bind_eq_ok_iff.1 h
    obtain ⟨_, _, _, h⟩ := Action.bind_eq_ok_iff.1 h
    cases h
  · cases h
    exact ⟨rfl, rfl⟩

theorem sound_postfixed : Sound (postfixed st inner) (Derives st.file st.fetch .postfixed) := by
  intro c e c' hc h
  obtain ⟨e₀, c₀, hprimary, h⟩ := Action.bind_eq_ok_iff.1 h
  obtain ⟨ts, hmove, hts⟩ := sound_primary hinner _ _ _ hc hprimary
  obtain ⟨e₁, c₁, ⟨used, hused, he₁⟩, hturn⟩ := iterate_ok
    (P := fun e c₁ => ∃ used, c.Moves used c₁ ∧ Derives st.file st.fetch .postfixed used e)
    (by
      rintro e₁ c₁ e₂ c₂ ⟨used, hused, he₁⟩ hturn
      obtain ⟨us, -, hus, hstep⟩ := postfixTurn_again hinner (hused.closed hc) hturn
      exact ⟨used ++ us, hused.trans hus, hstep used he₁⟩)
    ⟨ts, hmove, .bare hts⟩ h
  obtain ⟨rfl, rfl⟩ := postfixTurn_finish hturn
  exact ⟨used, hused, he₁⟩

/-! ### Signs and operators -/

omit hinner in
theorem signed_of_some {op : Sign} (h : sign? c.current = some op) :
    signed st inner c =
      (postfixed st inner >>= fun e => pure (.unary c.line op e)) c.advance.2 := by
  rw [signed, current_bind]
  simp only [h, advance_bind, Cursor.line_here]

omit hinner in
theorem signed_of_none (h : sign? c.current = none) :
    signed st inner c = postfixed st inner c := by
  rw [signed, current_bind]
  simp only [h]

theorem sound_signed : Sound (signed st inner) (Derives st.file st.fetch .signed) := by
  intro c e c' hc h
  rcases hsign : sign? c.current with - | op
  · rw [signed_of_none hsign] at h
    obtain ⟨ts, hmove, hts⟩ := sound_postfixed hinner _ _ _ hc h
    exact ⟨ts, hmove, .unsigned hts⟩
  · rw [signed_of_some hsign] at h
    obtain ⟨m, hm, htext⟩ := sign?_eq_some_iff.1 hsign
    have hmark := c.moves_of_current hc hm rfl
    obtain ⟨e', c₁, he, h⟩ := Action.bind_eq_ok_iff.1 h
    obtain ⟨ts, hmove, hts⟩ := sound_postfixed hinner _ _ _ (hmark.closed hc) he
    obtain ⟨rfl, rfl⟩ : _ = e ∧ c₁ = c' := by simpa using h
    exact ⟨_, hmark.trans hmove, .sign c.line m op htext hts⟩

omit hinner in
theorem chainTurn_of_some {op? : Token → Option ArithOp} {operand : Parser Expr} {e : Expr}
    {op : ArithOp} (h : op? c.current = some op) :
    chainTurn op? operand e c =
      (operand >>= fun r => pure (.again (.arith c.line op e r))) c.advance.2 := by
  rw [chainTurn, current_bind]
  simp only [h, advance_bind, Cursor.line_here]

omit hinner in
theorem chainTurn_of_none {op? : Token → Option ArithOp} {operand : Parser Expr} {e : Expr}
    (h : op? c.current = none) : chainTurn op? operand e c = (.ok (.finish e), c) := by
  rw [chainTurn, current_bind]
  simp only [h]
  rfl

omit hinner in
/-- A turn that goes on has taken an operator and the operand behind it. -/
theorem chainTurn_again {op? : Token → Option ArithOp} {operand : Parser Expr}
    {H : List Located → Expr → Prop} {e e' : Expr} (hend : op? .endOfInput = none)
    (hoperand : Sound operand H) (hc : c.Closed)
    (h : chainTurn op? operand e c = (.ok (.again e'), c')) :
    ∃ op r us, op? c.current = some op ∧ e' = .arith c.line op e r ∧
      c.Moves (c.here :: us) c' ∧ H us r := by
  rcases hop : op? c.current with - | op
  · rw [chainTurn_of_none hop] at h
    cases h
  · rw [chainTurn_of_some hop] at h
    have hnotEnd : c.current.isEnd = false := by
      cases hcurrent : c.current with
      | endOfInput => simp [hcurrent, hend] at hop
      | _ => rfl
    have hmark := Cursor.moves_advance hc hnotEnd
    obtain ⟨r, c₁, hright, h⟩ := Action.bind_eq_ok_iff.1 h
    obtain ⟨us, hus, hr⟩ := hoperand _ _ _ (hmark.closed hc) hright
    obtain ⟨rfl, rfl⟩ : _ = e' ∧ c₁ = c' := by simpa using h
    exact ⟨op, r, us, rfl, rfl, hmark.trans hus, hr⟩

omit hinner in
/-- Operands of `H` with operators between them are of `G`, if `G` can be built up from the left. -/
theorem sound_chain {op? : Token → Option ArithOp} {operand : Parser Expr}
    {G H : List Located → Expr → Prop} (hend : op? .endOfInput = none) (hoperand : Sound operand H)
    (hone : ∀ ts e, H ts e → G ts e)
    (hmore : ∀ ts us e e' line tok op, op? tok = some op → G ts e → H us e' →
      G (ts ++ ⟨tok, line⟩ :: us) (.arith line op e e')) : Sound (chain op? operand) G := by
  intro c e c' hc h
  obtain ⟨e₀, c₀, hfirst, h⟩ := Action.bind_eq_ok_iff.1 h
  obtain ⟨ts, hmove, hts⟩ := hoperand _ _ _ hc hfirst
  -- what was taken up to any turn is of `G`, with the tree built so far
  have hagain : ∀ e₁ c₁ e₂ c₂, (∃ used, c.Moves used c₁ ∧ G used e₁) →
      chainTurn op? operand e₁ c₁ = (.ok (.again e₂), c₂) →
        ∃ used, c.Moves used c₂ ∧ G used e₂ := by
    rintro e₁ c₁ e₂ c₂ ⟨used, hused, he₁⟩ hturn
    obtain ⟨op, r, us, hop, rfl, hus, hr⟩ :=
      chainTurn_again hend hoperand (hused.closed hc) hturn
    exact ⟨_, hused.trans hus, hmore _ _ _ _ _ _ _ hop he₁ hr⟩
  obtain ⟨e₁, c₁, ⟨used, hused, he₁⟩, hturn⟩ := iterate_ok hagain ⟨ts, hmove, hone _ _ hts⟩ h
  rcases hop : op? c₁.current with - | op
  · rw [chainTurn_of_none hop] at hturn
    obtain ⟨rfl, rfl⟩ : e₁ = e ∧ c₁ = c' := by simpa using hturn
    exact ⟨used, hused, he₁⟩
  · rw [chainTurn_of_some hop] at hturn
    obtain ⟨_, _, _, hturn⟩ := Action.bind_eq_ok_iff.1 hturn
    cases hturn

theorem sound_product : Sound (product st inner) (Derives st.file st.fetch .product) := by
  refine sound_chain rfl (sound_signed hinner) (fun _ _ => .factor) ?_
  intro ts us e e' line tok op hop hts hus
  obtain ⟨m, rfl, htext, hkind⟩ := productOp?_eq_some_iff.1 hop
  exact .times line m op htext hkind hts hus

theorem sound_sum : Sound (sum st inner) (Derives st.file st.fetch .sum) := by
  refine sound_chain rfl (sound_product hinner) (fun _ _ => .summand) ?_
  intro ts us e e' line tok op hop hts hus
  obtain ⟨m, rfl, htext, hkind⟩ := sumOp?_eq_some_iff.1 hop
  exact .plus line m op htext hkind hts hus

theorem sound_comparison :
    Sound (comparison st inner) (Derives st.file st.fetch (.item .expression)) := by
  intro c e c' hc h
  obtain ⟨e₁, c₁, hleft, h⟩ := Action.bind_eq_ok_iff.1 h
  obtain ⟨ts, hmove, hts⟩ := sound_sum hinner _ _ _ hc hleft
  have hc₁ := hmove.closed hc
  rw [current_bind] at h
  rcases hop : compareOp? c₁.current with - | op
  · simp only [hop] at h
    obtain ⟨rfl, rfl⟩ : e₁ = e ∧ c₁ = c' := by simpa using h
    exact ⟨ts, hmove, .single hts⟩
  · obtain ⟨m, hm, htext⟩ := compareOp?_eq_some_iff.1 hop
    have hmark := c₁.moves_of_current hc₁ hm rfl
    simp only [hop, advance_bind] at h
    obtain ⟨e₂, c₂, hright, h⟩ := Action.bind_eq_ok_iff.1 h
    obtain ⟨us, hmove', hus⟩ := sound_sum hinner _ _ _ (hmark.closed hc₁) hright
    rw [current_bind] at h
    split at h
    · cases h
    · obtain ⟨rfl, rfl⟩ : _ = e ∧ c₂ = c' := by simpa using h
      exact ⟨_, hmove.trans (hmark.trans hmove'), .compared c₁.line m op htext hts hus⟩

/-! ### Statements -/

theorem sound_condition : Sound (condition inner) fun used e =>
    ∃ cs l₁ l₂, used = Symbol.leftParen.at l₁ :: (cs ++ [Symbol.rightParen.at l₂]) ∧
      Derives st.file st.fetch (.item .expression) cs e := by
  intro c e c' hc h
  obtain ⟨_, c₁, hopen, h⟩ := Action.bind_eq_ok_iff.1 h
  obtain ⟨l₁, hopen⟩ := expect_ok hc hopen
  obtain ⟨e', c₂, he, h⟩ := Action.bind_eq_ok_iff.1 h
  obtain ⟨cs, he, hcs⟩ := hinner.expression _ _ _ (hopen.closed hc) he
  obtain ⟨_, c₃, hclose, h⟩ := Action.bind_eq_ok_iff.1 h
  obtain ⟨l₂, hclose⟩ := expect_ok (he.closed (hopen.closed hc)) hclose
  obtain ⟨rfl, rfl⟩ : e' = e ∧ c₃ = c' := by simpa using h
  exact ⟨_, hopen.trans (he.trans hclose), cs, l₁, l₂, rfl, hcs⟩

theorem sound_cond {s : Stmt} (hc : c.Closed) (hcurrent : c.current = .keyword .ifWord)
    (h : cond inner c = (.ok s, c')) :
    ∃ used, c.Moves used c' ∧ Derives st.file st.fetch .statement used s := by
  rw [cond, advance_bind] at h
  have hword := c.moves_of_current hc hcurrent rfl
  have hc₁ := hword.closed hc
  obtain ⟨e, c₂, he, h⟩ := Action.bind_eq_ok_iff.1 h
  obtain ⟨_, he, cs, l₁, l₂, rfl, hcs⟩ := sound_condition hinner _ _ _ hc₁ he
  have hc₂ := he.closed hc₁
  obtain ⟨yes, c₃, hyes, h⟩ := Action.bind_eq_ok_iff.1 h
  obtain ⟨ts, hyes, hts⟩ := hinner.block _ _ _ hc₂ hyes
  have hc₃ := hyes.closed hc₂
  by_cases helse : c₃.current = .keyword .elseWord
  · rw [eatWord_bind_of_eq _ helse, if_pos rfl] at h
    have hword' := c₃.moves_of_current hc₃ helse rfl
    obtain ⟨no, c₄, hno, h⟩ := Action.bind_eq_ok_iff.1 h
    obtain ⟨us, hno, hus⟩ := hinner.block _ _ _ (hword'.closed hc₃) hno
    obtain ⟨rfl, rfl⟩ : _ = s ∧ c₄ = c' := by simpa using h
    refine ⟨_, hword.trans (he.trans (hyes.trans (hword'.trans hno))), ?_⟩
    simpa using Derives.condElse c.line l₁ l₂ c₃.line hcs hts hus
  · rw [eatWord_bind_of_ne _ helse, if_neg (by simp)] at h
    obtain ⟨rfl, rfl⟩ : _ = s ∧ c₃ = c' := by simpa using h
    refine ⟨_, hword.trans (he.trans hyes), ?_⟩
    simpa using Derives.cond c.line l₁ l₂ hcs hts

theorem sound_loop {s : Stmt} (hc : c.Closed) (hcurrent : c.current = .keyword .loopWord)
    (h : loop inner c = (.ok s, c')) :
    ∃ used, c.Moves used c' ∧ Derives st.file st.fetch .statement used s := by
  rw [loop, advance_bind] at h
  have hword := c.moves_of_current hc hcurrent rfl
  have hc₁ := hword.closed hc
  obtain ⟨e, c₂, he, h⟩ := Action.bind_eq_ok_iff.1 h
  obtain ⟨_, he, cs, l₁, l₂, rfl, hcs⟩ := sound_condition hinner _ _ _ hc₁ he
  obtain ⟨body, c₃, hbody, h⟩ := Action.bind_eq_ok_iff.1 h
  obtain ⟨ts, hbody, hts⟩ := hinner.block _ _ _ (he.closed hc₁) hbody
  obtain ⟨rfl, rfl⟩ : _ = s ∧ c₃ = c' := by simpa using h
  refine ⟨_, hword.trans (he.trans hbody), ?_⟩
  simpa using Derives.loop c.line l₁ l₂ hcs hts

theorem sound_ret {s : Stmt} (hc : c.Closed) (hcurrent : c.current = .keyword .returnWord)
    (h : ret inner c = (.ok s, c')) :
    ∃ used, c.Moves used c' ∧ Derives st.file st.fetch .statement used s := by
  rw [ret, advance_bind] at h
  have hword := c.moves_of_current hc hcurrent rfl
  obtain ⟨e, c₁, he, h⟩ := Action.bind_eq_ok_iff.1 h
  obtain ⟨ts, he, hts⟩ := hinner.expression _ _ _ (hword.closed hc) he
  obtain ⟨rfl, rfl⟩ : _ = s ∧ c₁ = c' := by simpa using h
  exact ⟨_, hword.trans he, .ret c.line hts⟩

omit hinner in
theorem sound_get {s : Stmt} (hc : c.Closed) (hcurrent : c.current = .keyword .getWord)
    (h : get st c = (.ok s, c')) :
    ∃ used, c.Moves used c' ∧ Derives st.file st.fetch .statement used s := by
  rw [get, advance_bind, advance_bind] at h
  have hword := c.moves_of_current hc hcurrent rfl
  generalize htarget : c.advance.2.here.token = tok at h
  split at h
  · next name =>
    have hname := c.advance.2.moves_of_current (hword.closed hc) htarget rfl
    obtain ⟨program, c₁, hfetch, h⟩ := Action.bind_eq_ok_iff.1 h
    obtain ⟨hprogram, rfl⟩ := Action.ofExcept_eq_ok_iff.1 hfetch
    obtain ⟨rfl, rfl⟩ : _ = s ∧ c.advance.2.advance.2 = c' := by simpa using h
    exact ⟨_, hword.trans hname, .get c.line _ hprogram⟩
  · cases h

theorem sound_simple : Sound (simple inner) (Derives st.file st.fetch .statement) := by
  intro c s c' hc h
  rw [simple, line_bind] at h
  obtain ⟨e, c₁, he, h⟩ := Action.bind_eq_ok_iff.1 h
  obtain ⟨_, he, hts⟩ := hinner.expression _ _ _ hc he
  obtain ⟨t, ts, rfl, -⟩ := hts.exists_cons rfl
  -- the statement is on the line of its first token
  obtain rfl : c.here = t := he.here
  have hc₁ := he.closed hc
  have hassign : ∀ how : Assignment, c₁.current = .symbol how.mark →
      (inner.expression >>= fun value => pure (.assign c.line how e value)) c₁.advance.2 =
        (.ok s, c') → ∃ used, c.Moves used c' ∧ Derives st.file st.fetch .statement used s := by
    intro how hmark h
    have hstep := c₁.moves_of_current hc₁ hmark rfl
    obtain ⟨value, c₂, hvalue, h⟩ := Action.bind_eq_ok_iff.1 h
    obtain ⟨us, hvalue, hus⟩ := hinner.expression _ _ _ (hstep.closed hc₁) hvalue
    obtain ⟨rfl, rfl⟩ : _ = s ∧ c₂ = c' := by simpa using h
    exact ⟨_, he.trans (hstep.trans hvalue), .assign c₁.line how hts hus⟩
  by_cases hdefine : c₁.current = .symbol .assign
  · rw [eat_bind_of_eq _ hdefine, if_pos rfl] at h
    exact hassign .define hdefine h
  · rw [eat_bind_of_ne _ hdefine, if_neg (by simp)] at h
    by_cases hreassign : c₁.current = .symbol .refAssign
    · rw [eat_bind_of_eq _ hreassign, if_pos rfl] at h
      exact hassign .reassign hreassign h
    · rw [eat_bind_of_ne _ hreassign, if_neg (by simp)] at h
      obtain ⟨rfl, rfl⟩ : _ = s ∧ c₁ = c' := by simpa using h
      exact ⟨_, he, .expr hts⟩

theorem sound_statement : Sound (statement st inner) (Derives st.file st.fetch .statement) := by
  intro c s c' hc h
  rw [statement, current_bind] at h
  generalize hcurrent : c.current = tok at h
  split at h
  · obtain ⟨body, c₁, hbody, h⟩ := Action.bind_eq_ok_iff.1 h
    obtain ⟨ts, hmove, hts⟩ := hinner.block _ _ _ hc hbody
    obtain ⟨rfl, rfl⟩ : _ = s ∧ c₁ = c' := by simpa using h
    exact ⟨ts, hmove, .nested hts⟩
  · exact sound_get hc hcurrent h
  · exact sound_cond hinner hc hcurrent h
  · exact sound_loop hinner hc hcurrent h
  · exact sound_ret hinner hc hcurrent h
  · exact sound_simple hinner _ _ _ hc h

/-- A statement with its semicolon may stand before other statements. -/
theorem sound_closedStatement : Sound (closedStatement st inner) fun used s =>
    ∀ us ss, Derives st.file st.fetch .statements us ss →
      Derives st.file st.fetch .statements (used ++ us) (s :: ss) := by
  intro c s c' hc h
  obtain ⟨s', c₁, hs, h⟩ := Action.bind_eq_ok_iff.1 h
  obtain ⟨ts, hmove, hts⟩ := sound_statement hinner _ _ _ hc hs
  obtain ⟨_, c₂, hclose, h⟩ := Action.bind_eq_ok_iff.1 h
  obtain ⟨l, hclose⟩ := expect_ok (hmove.closed hc) hclose
  obtain ⟨rfl, rfl⟩ : s' = s ∧ c₂ = c' := by simpa using h
  refine ⟨_, hmove.trans hclose, fun us ss hss => ?_⟩
  simpa using Derives.followed l hts hss

omit hinner in
/-- A turn of a block has found the closing brace or read a statement. -/
theorem blockTurn_ok {stmts : List Stmt} {r : Turn (List Stmt) (List Stmt)}
    (h : blockTurn st inner stmts c = (.ok r, c')) :
    (r = .finish stmts.reverse ∧ c.current = .symbol .rightBrace ∧ c' = c.advance.2) ∨
      ∃ s, r = .again (s :: stmts) ∧ closedStatement st inner c = (.ok s, c') := by
  by_cases hbrace : c.current = .symbol .rightBrace
  · rw [blockTurn, eat_bind_of_eq _ hbrace, if_pos rfl] at h
    obtain ⟨rfl, rfl⟩ : .finish stmts.reverse = r ∧ c.advance.2 = c' := by simpa using h
    exact .inl ⟨rfl, hbrace, rfl⟩
  · rw [blockTurn, eat_bind_of_ne _ hbrace, if_neg (by simp), atEnd_bind] at h
    split at h
    · cases h
    · obtain ⟨s, c₁, hs, h⟩ := Action.bind_eq_ok_iff.1 h
      obtain ⟨rfl, rfl⟩ : .again (s :: stmts) = r ∧ c₁ = c' := by simpa using h
      exact .inr ⟨s, rfl, hs⟩

/-- Reading one statement more keeps what the statements before it do. -/
theorem prepends_closedStatement {c₁ c₂ : Cursor} {stmts : List Stmt} {s : Stmt} (hc : c.Closed)
    (hread : Prepends (Derives st.file st.fetch .statements) c c₁ stmts)
    (h : closedStatement st inner c₁ = (.ok s, c₂)) :
    Prepends (Derives st.file st.fetch .statements) c c₂ (s :: stmts) := by
  have hc₁ : c₁.Closed := hread.choose_spec.1.closed hc
  obtain ⟨us, hmove, hone⟩ := sound_closedStatement hinner _ _ _ hc₁ h
  exact hread.cons hmove hone

theorem sound_blockBody : Sound (blockBody st inner) (Derives st.file st.fetch .block) := by
  intro c b c' hc h
  rw [blockBody, line_bind] at h
  by_cases hbrace : c.current = .symbol .leftBrace
  · rw [expect_bind_of_eq _ hbrace] at h
    have hopen := c.moves_of_current hc hbrace rfl
    have hc₁ := hopen.closed hc
    obtain ⟨ss, c₂, hloop, h⟩ := Action.bind_eq_ok_iff.1 h
    obtain ⟨rfl, rfl⟩ : _ = b ∧ c₂ = c' := by simpa using h
    have hagain : ∀ stmts d stmts' d',
        Prepends (Derives st.file st.fetch .statements) c.advance.2 d stmts →
        blockTurn st inner stmts d = (.ok (.again stmts'), d') →
          Prepends (Derives st.file st.fetch .statements) c.advance.2 d' stmts' := by
      intro stmts d stmts' d' hread hturn
      obtain ⟨hr, -⟩ | ⟨s, hr, hs⟩ := blockTurn_ok hturn
      · cases hr
      · cases hr
        exact prepends_closedStatement hinner hc₁ hread hs
    obtain ⟨stmts, c₃, ⟨used, hused, hextend⟩, hturn⟩ := iterate_ok hagain (.nil _ _) hloop
    obtain ⟨hr, hclose, rfl⟩ | ⟨s, hr, -⟩ := blockTurn_ok hturn
    · cases hr
      have hclosing := c₃.moves_of_current (hused.closed hc₁) hclose rfl
      have hall := hextend [] [] .empty
      simp only [List.append_nil] at hall
      exact ⟨_, hopen.trans (hused.trans hclosing), .block c.line c₃.line hall⟩
    · cases hr
  · rw [Action.bind_of_error (expect_of_ne hbrace)] at h
    cases h

end Levels

/-! ### Levels and programs -/

theorem sound_levels (st : Setting) (n : Nat) : InnerSound st (levels st n) := by
  induction n with
  | zero => constructor <;> intro c a c' hc h <;> cases h
  | succ n ih =>
    constructor
    · intro c e c' hc h
      exact sound_comparison ih c e c' hc h
    · intro c b c' hc h
      exact sound_blockBody ih c b c' hc h

/-- A turn of a program has found the end of the input or read a statement. -/
theorem programTurn_ok {st : Setting} {inner : Inner} {stmts : List Stmt}
    {r : Turn (List Stmt) Program} (h : programTurn st inner stmts c = (.ok r, c')) :
    (r = .finish stmts.reverse ∧ c.atEnd = true ∧ c' = c) ∨
      ∃ s, r = .again (s :: stmts) ∧ closedStatement st inner c = (.ok s, c') := by
  rw [programTurn, atEnd_bind] at h
  split at h
  · next hend =>
    obtain ⟨rfl, rfl⟩ : .finish stmts.reverse = r ∧ c = c' := by simpa using h
    exact .inl ⟨rfl, hend, rfl⟩
  · obtain ⟨s, c₁, hs, h⟩ := Action.bind_eq_ok_iff.1 h
    obtain ⟨rfl, rfl⟩ : .again (s :: stmts) = r ∧ c₁ = c' := by simpa using h
    exact .inr ⟨s, rfl, hs⟩

/-- A program that is accepted is derivable, and all tokens before an end were taken. -/
theorem program_ok {st : Setting} {p : Program} (hc : c.Closed)
    (h : program st c = (.ok p, c')) :
    ∃ used, c.Moves used c' ∧ Derives st.file st.fetch .statements used p ∧ c'.atEnd = true := by
  have hagain : ∀ stmts d stmts' d',
      Prepends (Derives st.file st.fetch .statements) c d stmts →
      programTurn st (outermost st) stmts d = (.ok (.again stmts'), d') →
        Prepends (Derives st.file st.fetch .statements) c d' stmts' := by
    intro stmts d stmts' d' hread hturn
    obtain ⟨hr, -⟩ | ⟨s, hr, hs⟩ := programTurn_ok hturn
    · cases hr
    · cases hr
      exact prepends_closedStatement (sound_levels st _) hc hread hs
  obtain ⟨stmts, c₁, ⟨used, hused, hextend⟩, hturn⟩ := iterate_ok hagain (.nil _ _) h
  obtain ⟨hr, hend, rfl⟩ | ⟨s, hr, -⟩ := programTurn_ok hturn
  · cases hr
    exact ⟨used, hused, by simpa using hextend [] [] .empty, hend⟩
  · cases hr

end TableScript.Parser
