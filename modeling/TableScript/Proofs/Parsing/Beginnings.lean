import TableScript.Proofs.Parsing.Acceptance

/-!
# What was read can be completed

The parser never takes a token too many: when it fails, the tokens that it has taken are the beginning
of some program (`completes_of_program_error`).

A `Beginning` is a property of the tokens taken so far that only beginnings of programs have.  What the
parser still has to read is said by building such properties backwards from the end: `before k B` holds
if any tokens of the category `k` lead to `B`, `token tok B` if the token `tok` does.  Since each category
has some tokens, each of these can be completed.  `Carries B x B'` is then a triple for parsers: from `B`,
the parser succeeds with `B'`, or it fails on the line of a token before which it has stopped, where the
tokens up to there can be completed.

Each parser of the grammar carries `before k B` to `B`, for any `B`.  Where it has a choice, the tokens
taken so far have a property for each way to go on (`also`); in the loops that group to the left, they
end with tokens of the category already (`within`).

Imports are left out: `Get` takes the token behind it whatever it is.
-/

namespace TableScript

/-- A property of tokens that only those have which can be completed to tokens with `L`. -/
structure Beginning (L : List Located → Prop) where
  Holds : List Located → Prop
  completes : ∀ {w}, Holds w → ∃ us, L (w ++ us)

/-- Tokens of a category, whatever they denote and whatever can be imported. -/
def Derivable (k : Category) (ts : List Located) : Prop :=
  ∀ file fetch, ∃ a, Derives file fetch k ts a

namespace Derivable

variable {k₁ k₂ k₃ k : Category} {ts₁ ts₂ ts₃ ts : List Located}

/-- A rule with one premise. -/
theorem rule (h₁ : Derivable k₁ ts₁)
    (hrule : ∀ {file fetch a}, Derives file fetch k₁ ts₁ a → ∃ b, Derives file fetch k ts b) :
    Derivable k ts := by
  intro file fetch
  obtain ⟨a, h₁⟩ := h₁ file fetch
  exact hrule h₁

/-- A rule with two premises. -/
theorem rule₂ (h₁ : Derivable k₁ ts₁) (h₂ : Derivable k₂ ts₂)
    (hrule : ∀ {file fetch a₁ a₂}, Derives file fetch k₁ ts₁ a₁ → Derives file fetch k₂ ts₂ a₂ →
      ∃ b, Derives file fetch k ts b) : Derivable k ts := by
  intro file fetch
  obtain ⟨a₁, h₁⟩ := h₁ file fetch
  obtain ⟨a₂, h₂⟩ := h₂ file fetch
  exact hrule h₁ h₂

/-- A rule with three premises. -/
theorem rule₃ (h₁ : Derivable k₁ ts₁) (h₂ : Derivable k₂ ts₂) (h₃ : Derivable k₃ ts₃)
    (hrule : ∀ {file fetch a₁ a₂ a₃}, Derives file fetch k₁ ts₁ a₁ →
      Derives file fetch k₂ ts₂ a₂ → Derives file fetch k₃ ts₃ a₃ →
      ∃ b, Derives file fetch k ts b) : Derivable k ts := by
  intro file fetch
  obtain ⟨a₁, h₁⟩ := h₁ file fetch
  obtain ⟨a₂, h₂⟩ := h₂ file fetch
  obtain ⟨a₃, h₃⟩ := h₃ file fetch
  exact hrule h₁ h₂ h₃

theorem exists_cons (h : Derivable k ts) (hk : k.mayBeEmpty = false) : ∃ t us, ts = t :: us := by
  obtain ⟨a, h⟩ := h none fun _ _ => .ok []
  obtain ⟨t, us, hts, -⟩ := h.exists_cons hk
  exact ⟨t, us, hts⟩

end Derivable

/-- There are tokens of each category. -/
theorem exists_derivable (k : Category) : ∃ ts, Derivable k ts := by
  have hpostfixed : Derivable .postfixed [⟨.name "x", 1⟩] := fun _ _ => ⟨_, .bare (.var 1 "x")⟩
  have hsigned : Derivable .signed [⟨.name "x", 1⟩] := hpostfixed.rule fun h => ⟨_, .unsigned h⟩
  have hproduct : Derivable .product [⟨.name "x", 1⟩] := hsigned.rule fun h => ⟨_, .factor h⟩
  have hsum : Derivable .sum [⟨.name "x", 1⟩] := hproduct.rule fun h => ⟨_, .summand h⟩
  have hexpression : Derivable (.item .expression) [⟨.name "x", 1⟩] :=
    hsum.rule fun h => ⟨_, .single h⟩
  have hitem : ∀ k : Item, ∃ ts, Derivable (.item k) ts := by
    intro k
    cases k with
    | name => exact ⟨_, fun _ _ => ⟨_, .name 1 "x"⟩⟩
    | expression => exact ⟨_, hexpression⟩
    | entry => exact ⟨_, hexpression.rule₂ hexpression fun h h' => ⟨_, .entry 1 h h'⟩⟩
  cases k with
  | primary => exact ⟨_, fun _ _ => ⟨_, .var 1 "x"⟩⟩
  | postfixed => exact ⟨_, hpostfixed⟩
  | signed => exact ⟨_, hsigned⟩
  | product => exact ⟨_, hproduct⟩
  | sum => exact ⟨_, hsum⟩
  | item k => exact hitem k
  | several k =>
    obtain ⟨ts, hts⟩ := hitem k
    exact ⟨ts, hts.rule fun h => ⟨_, .one h⟩⟩
  | list k => exact ⟨[], fun _ _ => ⟨_, .noItems⟩⟩
  | block => exact ⟨_, fun _ _ => ⟨_, .block 1 1 .empty⟩⟩
  | statement => exact ⟨_, hexpression.rule fun h => ⟨_, .expr h⟩⟩
  | statements => exact ⟨[], fun _ _ => ⟨_, .empty⟩⟩

/-! ### Beginnings, built from the end -/

namespace Beginning

variable {L : List Located → Prop} {B : Beginning L} {w : List Located}

/-- Any tokens of the category lead to `B`. -/
def before (k : Category) (B : Beginning L) : Beginning L where
  Holds w := ∀ ts, Derivable k ts → B.Holds (w ++ ts)
  completes := by
    intro w h
    obtain ⟨ts, hts⟩ := exists_derivable k
    obtain ⟨us, hus⟩ := B.completes (h ts hts)
    exact ⟨ts ++ us, by rwa [List.append_assoc] at hus⟩

/-- The token leads to `B`, on any line. -/
def token (tok : Token) (B : Beginning L) : Beginning L where
  Holds w := ∀ line, B.Holds (w ++ [⟨tok, line⟩])
  completes := by
    intro w h
    obtain ⟨us, hus⟩ := B.completes (h 1)
    exact ⟨⟨tok, 1⟩ :: us, by rwa [List.append_assoc] at hus⟩

/-- The symbol leads to `B`. -/
@[reducible] def mark (m : Symbol) (B : Beginning L) : Beginning L := B.token (.symbol m)

/-- `B` holds, and another way to go on is open too. -/
def also (B : Beginning L) (P : List Located → Prop) : Beginning L where
  Holds w := B.Holds w ∧ P w
  completes h := B.completes h.1

/-- Behind tokens of the category, which may go on, where any such tokens lead to `B`. -/
def within (k : Category) (B : Beginning L) : Beginning L where
  Holds w := ∃ w₀ ts, w = w₀ ++ ts ∧ Derivable k ts ∧ (B.before k).Holds w₀
  completes := by
    rintro w ⟨w₀, ts, rfl, hts, h⟩
    exact B.completes (h ts hts)

/-- The whole program was read. -/
def whole (L : List Located → Prop) : Beginning L where
  Holds := L
  completes h := ⟨[], by rwa [List.append_nil]⟩

end Beginning

/-- The tokens hold no import. -/
def GetFree (ts : List Located) : Prop := ∀ t ∈ ts, t.token ≠ .keyword .getWord

/-- A cursor on tokens with an end and without imports. -/
structure Cursor.Plain (c : Cursor) : Prop where
  closed : c.Closed
  getFree : GetFree c.tokens

theorem Cursor.Moves.plain {c c' : Cursor} {ts : List Located} (h : c.Moves ts c') (hc : c.Plain) :
    c'.Plain := by
  refine ⟨h.closed hc.closed, fun t ht => hc.getFree t ?_⟩
  rw [h]
  exact List.mem_append_right ts ht

namespace Parser

open Beginning

variable {α β : Type} {L : List Located → Prop} {c c' : Cursor} {w : List Located}

/-! ### Triples -/

/-- How a parser may end that started at `c` behind the tokens `w`. -/
def Ends (w : List Located) (c : Cursor) (B : α → Beginning L) : Except Error α × Cursor → Prop
  | (.ok a, c') => ∃ used, c.Moves used c' ∧ (B a).Holds (w ++ used)
  | (.error e, c') => e.IsTooDeep ∨
      ∃ used us g, c.Moves used c' ∧ L (w ++ used ++ us) ∧ e = .grammar c'.line g

/-- From `B` the parser leads to `B'`, or it fails where what was read can be completed. -/
def Carries (B : Beginning L) (x : Parser α) (B' : α → Beginning L) : Prop :=
  ∀ c w, c.Plain → B.Holds w → Ends w c B' (x c)

variable {B D : Beginning L} {B' M : α → Beginning L} {K : β → Beginning L}

theorem Carries.weaken {x : Parser α} (hB : ∀ w, B.Holds w → D.Holds w) (hx : Carries D x B') :
    Carries B x B' :=
  fun c w hc hw => hx c w hc (hB w hw)

theorem Ends.after {r : Except Error α × Cursor} {used : List Located} (hmove : c.Moves used c')
    (h : Ends (w ++ used) c' B' r) : Ends w c B' r := by
  obtain ⟨_ | _, c''⟩ := r
  · rcases h with hdeep | ⟨used', us, g, hmove', hL, he⟩
    · exact .inl hdeep
    · refine .inr ⟨used ++ used', us, g, hmove.trans hmove', ?_, he⟩
      rwa [← List.append_assoc w]
  · obtain ⟨used', hmove', hB⟩ := h
    refine ⟨used ++ used', hmove.trans hmove', ?_⟩
    rwa [← List.append_assoc]

theorem Ends.bind {x : Parser α} {f : α → Parser β} (hc : c.Plain) (hx : Ends w c M (x c))
    (hf : ∀ a, Carries (M a) (f a) K) : Ends w c K ((x >>= f) c) := by
  rw [Action.bind_apply]
  rcases hxc : x c with ⟨e | a, c₁⟩
  · rwa [hxc] at hx
  · rw [hxc] at hx
    obtain ⟨used, hmove, hM⟩ := hx
    exact .after hmove (hf a c₁ _ (hmove.plain hc) hM)

theorem Carries.bind {x : Parser α} {f : α → Parser β} (hx : Carries B x M)
    (hf : ∀ a, Carries (M a) (f a) K) : Carries B (x >>= f) K :=
  fun c w hc hw => (hx c w hc hw).bind hc hf

theorem carries_pure {a : α} (h : ∀ w, B.Holds w → (B' a).Holds w) : Carries B (pure a) B' :=
  fun c w _ hw => ⟨[], .refl c, by simpa using h w hw⟩

/-- It is always right to fail, since what was read is a beginning. -/
theorem carries_failHere {g : Token → GrammarError} : Carries B (failHere g) B' := by
  intro c w _ hw
  obtain ⟨us, hus⟩ := B.completes hw
  exact .inr ⟨[], us, g c.current, .refl c, by simpa using hus, rfl⟩

/-- A step that only looks. -/
theorem carries_read_bind {f : Cursor → α} {k : α → Parser β} (h : ∀ a, Carries B (k a) K) :
    Carries B (Action.read f >>= k) K :=
  fun c w hc hw => h (f c) c w hc hw

/-- Taking a token that is known. -/
theorem ends_advance_bind {tok : Token} {f : Located → Parser α} (hc : c.Plain)
    (hcurrent : c.current = tok) (htok : tok.isEnd = false) (hw : (B.token tok).Holds w)
    (hf : ∀ t, Carries B (f t) B') : Ends w c B' ((advance >>= f) c) := by
  have hmove := c.moves_of_current hc.closed hcurrent htok
  rw [advance_bind]
  exact .after hmove (hf c.here _ _ (hmove.plain hc) (hw c.line))

/-- A symbol that is taken if it is there, with a way to go on in either case. -/
theorem carries_eat_bind {m : Symbol} {f : Bool → Parser α}
    (hB : ∀ w, B.Holds w → (D.mark m).Holds w) (htrue : Carries D (f true) B')
    (hfalse : Carries B (f false) B') : Carries B (eat m >>= f) B' := by
  intro c w hc hw
  by_cases hm : c.current = .symbol m
  · have hmove := c.moves_of_current hc.closed hm rfl
    rw [eat_bind_of_eq _ hm]
    exact .after hmove (htrue _ _ (hmove.plain hc) (hB w hw c.line))
  · rw [eat_bind_of_ne _ hm]
    exact hfalse c w hc hw

theorem carries_eatWord_bind {k : Keyword} {f : Bool → Parser α}
    (hB : ∀ w, B.Holds w → (D.token (.keyword k)).Holds w) (htrue : Carries D (f true) B')
    (hfalse : Carries B (f false) B') : Carries B (eatWord k >>= f) B' := by
  intro c w hc hw
  by_cases hk : c.current = .keyword k
  · have hmove := c.moves_of_current hc.closed hk rfl
    rw [eatWord_bind_of_eq _ hk]
    exact .after hmove (htrue _ _ (hmove.plain hc) (hB w hw c.line))
  · rw [eatWord_bind_of_ne _ hk]
    exact hfalse c w hc hw

theorem carries_expect (m : Symbol) : Carries (B.mark m) (expect m) fun _ => B := by
  rw [expect]
  refine carries_eat_bind (fun _ => id) ?_ ?_
  · exact carries_pure fun _ => id
  · exact carries_failHere

/-- What holds behind a turn: `B` if there is another one, `D` if it was the last. -/
def Turn.select (B D : Beginning L) : Turn α β → Beginning L
  | .again _ => B
  | .finish _ => D

/-- The invariant of a loop can be completed, so it does not matter where the loop is left. -/
theorem Carries.iterate {turn : α → Parser (Turn α β)}
    (hturn : ∀ a, Carries B (turn a) (Turn.select B D)) (a : α) :
    Carries B (Parser.iterate turn a) fun _ => D := by
  intro c w hc hw
  fun_induction Parser.iterate turn a c generalizing w with
  | case1 a c e c₁ hrun =>
    have hends := hturn a c w hc hw
    rwa [hrun] at hends
  | case2 a c b c₁ hrun =>
    have hends := hturn a c w hc hw
    rwa [hrun] at hends
  | case3 a c a₁ c₁ hrun hlt ih =>
    have hends := hturn a c w hc hw
    rw [hrun] at hends
    obtain ⟨used, hmove, hB⟩ := hends
    exact .after hmove (ih (w ++ used) (hmove.plain hc) hB)
  | case4 a c a₁ c₁ hrun hlt =>
    -- a turn that is refused has led to the invariant all the same
    have hends := hturn a c w hc hw
    rw [hrun] at hends
    obtain ⟨used, hmove, hB⟩ := hends
    exact .after hmove (carries_failHere c₁ (w ++ used) (hmove.plain hc) hB)

/-! ### Names and lists -/

theorem carries_name (B : Beginning L) :
    Carries (B.before (.item .name)) name fun _ => B := by
  intro c w hc hw
  rw [name, current_bind]
  generalize hcurrent : c.current = tok
  split
  · next s =>
    refine ends_advance_bind hc hcurrent rfl ?_ fun _ => carries_pure fun _ => id
    exact fun line => hw _ fun _ _ => ⟨s, .name line s⟩
  · exact carries_failHere c w hc hw

/-- A list and the symbol that closes it. -/
theorem carries_commaList (k : Item) {item : Parser k.Tree}
    (hitem : ∀ B : Beginning L, Carries (B.before (.item k)) item fun _ => B)
    (closing : Symbol) (B : Beginning L) :
    Carries ((B.mark closing).before (.list k)) (commaList item closing) fun _ => B := by
  let next : Beginning L := (B.mark closing).before (.several k)
  rw [commaList]
  refine carries_eat_bind (D := B) ?_ ?_ ?_
  · exact fun w hw => by simpa using hw [] fun _ _ => ⟨[], .noItems⟩
  · exact carries_pure fun _ => id
  refine Carries.weaken (D := next) (fun w hw ts hts => hw ts (hts.rule fun h => ⟨_, .items h⟩)) ?_
  refine Carries.iterate (fun items => ?_) []
  -- behind an item stands the closing symbol, or a comma with more items
  let behind : Beginning L :=
    (B.mark closing).also fun w => ∀ line, next.Holds (w ++ [Symbol.comma.at line])
  have hnext : ∀ w, next.Holds w → (behind.before (.item k)).Holds w := by
    intro w hw ts hts
    refine ⟨hw ts (hts.rule fun h => ⟨_, .one h⟩), fun line us hus => ?_⟩
    simpa using hw _ (hts.rule₂ hus fun h h' => ⟨_, .more line h h'⟩)
  refine .bind ((hitem behind).weaken hnext) fun a => ?_
  refine carries_eat_bind (D := next) (fun w hw => hw.2) ?_ ?_
  · refine carries_read_bind fun tok => ?_
    split
    · exact carries_failHere
    · exact carries_pure fun _ => id
  · refine carries_eat_bind (D := B) (fun w hw => hw.1) ?_ ?_
    · exact carries_pure fun _ => id
    · exact carries_failHere

/-! ### Expressions -/

/-- What is asked of the parsers of the next level. -/
structure InnerCarries (L : List Located → Prop) (inner : Inner) : Prop where
  expression : ∀ B : Beginning L,
    Carries (B.before (.item .expression)) inner.expression fun _ => B
  block : ∀ B : Beginning L, Carries (B.before .block) inner.block fun _ => B

section Levels

variable {st : Setting} {inner : Inner} (hinner : InnerCarries L inner) (B : Beginning L)

include hinner

theorem carries_entry :
    Carries (B.before (.item .entry)) (entry inner) fun _ => B := by
  let value : Beginning L := B.before (.item .expression)
  refine .bind ((hinner.expression (value.mark .colon)).weaken ?_) fun key => ?_
  · intro w hw ts hts line us hus
    simpa using hw _ (hts.rule₂ hus fun h h' => ⟨_, .entry line h h'⟩)
  refine .bind (carries_expect .colon) fun _ => ?_
  refine .bind (hinner.expression B) fun _ => ?_
  exact carries_pure fun _ => id

theorem ends_function (hc : c.Plain) (hcurrent : c.current = .keyword .functionWord)
    (hw : (B.before .primary).Holds w) :
    Ends w c (fun _ => B) (function st inner c) := by
  let body : Beginning L := B.before .block
  let params : Beginning L := (body.mark .rightParen).before (.list .name)
  refine ends_advance_bind (B := params.mark .leftParen) hc hcurrent rfl ?_ fun word => ?_
  · intro l l₁ ps hps l₂ bs hbs
    simpa using hw _ (hps.rule₂ hbs fun h h' => ⟨_, .function l l₁ l₂ h h'⟩)
  refine .bind (carries_expect .leftParen) fun _ => ?_
  refine .bind (carries_commaList .name carries_name .rightParen body) fun _ => ?_
  refine .bind (hinner.block B) fun _ => ?_
  exact carries_pure fun _ => id

theorem ends_table (hc : c.Plain) (hcurrent : c.current = .symbol .leftBracket)
    (hw : (B.before .primary).Holds w) :
    Ends w c (fun _ => B) (table inner c) := by
  let entries : Beginning L := (B.mark .rightBracket).before (.list .entry)
  refine ends_advance_bind (B := entries) hc hcurrent rfl ?_ fun bracket => ?_
  · intro l ts hts l₁
    simpa using hw _ (hts.rule fun h => ⟨_, .table l l₁ h⟩)
  refine .bind (carries_commaList .entry (carries_entry hinner) .rightBracket B) fun _ => ?_
  exact carries_pure fun _ => id

theorem ends_parenthesized (hc : c.Plain) (hcurrent : c.current = .symbol .leftParen)
    (hw : (B.before .primary).Holds w) :
    Ends w c (fun _ => B) (parenthesized inner c) := by
  let inside : Beginning L := (B.mark .rightParen).before (.item .expression)
  refine ends_advance_bind (B := inside) hc hcurrent rfl ?_ fun _ => ?_
  · intro l ts hts l₁
    simpa using hw _ (hts.rule fun h => ⟨_, .paren l l₁ h⟩)
  refine .bind (hinner.expression (B.mark .rightParen)) fun _ => ?_
  refine .bind (carries_expect .rightParen) fun _ => ?_
  exact carries_pure fun _ => id

omit hinner in
/-- A token that is an expression by itself. -/
theorem ends_literal {make : Nat → Expr} {tok : Token} (hc : c.Plain) (hcurrent : c.current = tok)
    (htok : tok.isEnd = false) (hw : (B.before .primary).Holds w)
    (hmake : ∀ l file fetch, Derives file fetch .primary [⟨tok, l⟩] (make l)) :
    Ends w c (fun _ => B) (literal make c) :=
  ends_advance_bind hc hcurrent htok (fun l => hw _ fun file fetch => ⟨_, hmake l file fetch⟩) fun _ =>
    carries_pure fun _ => id

theorem carries_primary :
    Carries (B.before .primary) (primary st inner) fun _ => B := by
  intro c w hc hw
  rw [primary, current_bind]
  generalize hcurrent : c.current = tok
  split
  · exact ends_literal B hc hcurrent rfl hw fun l _ _ => .number l _
  · exact ends_literal B hc hcurrent rfl hw fun l _ _ => .bool l _
  · exact ends_literal B hc hcurrent rfl hw fun l _ _ => .text l _
  · exact ends_literal B hc hcurrent rfl hw fun l _ _ => .var l _
  · exact ends_function hinner B hc hcurrent hw
  · exact ends_table hinner B hc hcurrent hw
  · exact ends_parenthesized hinner B hc hcurrent hw
  · exact carries_failHere c w hc hw
  · exact carries_failHere c w hc hw

/-- What was read is an expression already, and each call or index makes it a longer one. -/
theorem carries_postfixTurn (e : Expr) :
    Carries (B.within .postfixed) (postfixTurn inner e)
      (Turn.select (B.within .postfixed) B) := by
  rintro c w hc ⟨w₀, ts, rfl, hts, hw₀⟩
  let more : Beginning L := B.within .postfixed
  rw [postfixTurn, current_bind]
  generalize hcurrent : c.current = tok
  split
  · let args : Beginning L := (more.mark .rightParen).before (.list .expression)
    refine ends_advance_bind (B := args) hc hcurrent rfl ?_ fun _ => ?_
    · intro l us hus l₁
      exact ⟨w₀, _, by simp, hts.rule₂ hus fun h h' => ⟨_, .call l l₁ h h'⟩, hw₀⟩
    refine .bind (carries_commaList .expression hinner.expression .rightParen more) fun _ => ?_
    exact carries_pure fun _ => id
  · let key : Beginning L := (more.mark .rightBracket).before (.item .expression)
    refine ends_advance_bind (B := key) hc hcurrent rfl ?_ fun _ => ?_
    · intro l us hus l₁
      exact ⟨w₀, _, by simp, hts.rule₂ hus fun h h' => ⟨_, .index l l₁ h h'⟩, hw₀⟩
    refine .bind (hinner.expression (more.mark .rightBracket)) fun _ => ?_
    refine .bind (carries_expect .rightBracket) fun _ => ?_
    exact carries_pure fun _ => id
  · exact carries_pure (B := B) (fun _ => id) c _ hc (hw₀ ts hts)

omit hinner in
/-- Tokens of a tighter category are tokens of the looser one, which may go on. -/
theorem holds_within {k k' : Category} (hkk' : ∀ ts, Derivable k ts →
    Derivable k' ts) (hw : (B.before k').Holds w) :
    ((B.within k').before k).Holds w :=
  fun ts hts => ⟨w, ts, rfl, hkk' ts hts, hw⟩

theorem carries_postfixed :
    Carries (B.before .postfixed) (postfixed st inner) fun _ => B := by
  let more : Beginning L := B.within .postfixed
  refine .bind ((carries_primary hinner more).weaken ?_) fun e => ?_
  · exact fun w => holds_within B fun ts hts => hts.rule fun h => ⟨_, .bare h⟩
  exact Carries.iterate (carries_postfixTurn hinner B) e

theorem carries_signed :
    Carries (B.before .signed) (signed st inner) fun _ => B := by
  intro c w hc hw
  rcases hsign : sign? c.current with - | op
  · rw [signed_of_none hsign]
    exact carries_postfixed hinner B c w hc fun ts hts => hw ts (hts.rule fun h => ⟨_, .unsigned h⟩)
  · rw [signed, current_bind]
    simp only [hsign]
    obtain ⟨m, hm, htext⟩ := sign?_eq_some_iff.1 hsign
    let operand : Beginning L := B.before .postfixed
    refine ends_advance_bind (B := operand) hc hm rfl ?_ fun sign => ?_
    · intro l ts hts
      simpa using hw _ (hts.rule fun h => ⟨_, .sign l m op htext h⟩)
    refine .bind (carries_postfixed hinner B) fun _ => ?_
    exact carries_pure fun _ => id

omit hinner in
/-- A chain of operands of one category, for any table of operators and any category that its
derivations lead to. -/
theorem carries_chain {op? : Token → Option ArithOp} {operand : Parser Expr} {k k' : Category}
    (hoperand : ∀ B : Beginning L, Carries (B.before k) operand fun _ => B)
    (hfirst : ∀ ts, Derivable k ts → Derivable k' ts)
    (hmore : ∀ {tok op l ts us}, op? tok = some op → Derivable k' ts →
      Derivable k us → Derivable k' (ts ++ ⟨tok, l⟩ :: us))
    (hend : op? .endOfInput = none) :
    Carries (B.before k') (chain op? operand) fun _ => B := by
  let more : Beginning L := B.within k'
  refine .bind ((hoperand more).weaken fun w => holds_within B hfirst) fun left => ?_
  refine Carries.iterate (B := more) (fun e => ?_) left
  rintro c w hc ⟨w₀, ts, rfl, hts, hw₀⟩
  rw [chainTurn, current_bind]
  generalize hcurrent : c.current = tok
  rcases hop : op? tok with - | op
  · exact carries_pure (B := B) (fun _ => id) c _ hc (hw₀ ts hts)
  · have hnotEnd : tok.isEnd = false := by
      cases tok with
      | endOfInput => simp [hend] at hop
      | _ => rfl
    refine ends_advance_bind (B := more.before k) hc hcurrent hnotEnd ?_ fun _ => ?_
    · intro l us hus
      exact ⟨w₀, _, by simp, hmore (l := l) hop hts hus, hw₀⟩
    refine .bind (hoperand more) fun _ => ?_
    exact carries_pure fun _ => id

theorem carries_product :
    Carries (B.before .product) (product st inner) fun _ => B := by
  refine carries_chain B (carries_signed hinner) ?_ ?_ rfl
  · exact fun ts hts => hts.rule fun h => ⟨_, .factor h⟩
  · intro tok op l ts us hop hts hus
    obtain ⟨m, rfl, htext, hkind⟩ := productOp?_eq_some_iff.1 hop
    exact hts.rule₂ hus fun h h' => ⟨_, .times l m op htext hkind h h'⟩

theorem carries_sum : Carries (B.before .sum) (sum st inner) fun _ => B := by
  refine carries_chain B (carries_product hinner) ?_ ?_ rfl
  · exact fun ts hts => hts.rule fun h => ⟨_, .summand h⟩
  · intro tok op l ts us hop hts hus
    obtain ⟨m, rfl, htext, hkind⟩ := sumOp?_eq_some_iff.1 hop
    exact hts.rule₂ hus fun h h' => ⟨_, .plus l m op htext hkind h h'⟩

theorem carries_comparison :
    Carries (B.before (.item .expression)) (comparison st inner) fun _ => B := by
  let right : Beginning L := B.before .sum
  -- the left side is an expression by itself, or one side of a comparison
  let left : Beginning L := B.also fun w => ∀ m op line, m.text = CompareOp.text op →
    right.Holds (w ++ [Symbol.at m line])
  refine .bind ((carries_sum hinner left).weaken ?_) fun _ => ?_
  · intro w hw ts hts
    refine ⟨hw ts (hts.rule fun h => ⟨_, .single h⟩), fun m op line htext us hus => ?_⟩
    simpa using hw _ (hts.rule₂ hus fun h h' => ⟨_, .compared line m op htext h h'⟩)
  intro c w hc hw
  rw [current_bind]
  generalize hcurrent : c.current = tok
  rcases hop : compareOp? tok with - | op
  · exact carries_pure (B := B) (fun _ => id) c w hc hw.1
  · obtain ⟨m, rfl, htext⟩ := compareOp?_eq_some_iff.1 hop
    refine ends_advance_bind (B := right) hc hcurrent rfl (fun line => hw.2 m op line htext) ?_
    intro mark
    refine .bind (carries_sum hinner B) fun _ => ?_
    refine carries_read_bind fun tok => ?_
    split
    · exact carries_failHere
    · exact carries_pure fun _ => id

/-! ### Statements -/

theorem carries_condition :
    Carries (((B.mark .rightParen).before (.item .expression)).mark .leftParen)
      (condition inner) fun _ => B := by
  refine .bind (carries_expect .leftParen) fun _ => ?_
  refine .bind (hinner.expression (B.mark .rightParen)) fun _ => ?_
  refine .bind (carries_expect .rightParen) fun _ => ?_
  exact carries_pure fun _ => id

theorem ends_cond (hc : c.Plain) (hcurrent : c.current = .keyword .ifWord)
    (hw : (B.before .statement).Holds w) :
    Ends w c (fun _ => B) (cond inner c) := by
  -- behind the first block the statement may end, or go on with `Else`
  let behind : Beginning L := B.also fun w => ∀ line,
    (B.before .block).Holds (w ++ [Keyword.elseWord.at line])
  let yes : Beginning L := behind.before .block
  let test : Beginning L := (yes.mark .rightParen).before (.item .expression)
  refine ends_advance_bind (B := test.mark .leftParen) hc hcurrent rfl ?_ fun word => ?_
  · intro l l₁ cs hcs l₂ ts hts
    have hshort := hw _ (hcs.rule₂ hts fun h h' => ⟨_, .cond l l₁ l₂ h h'⟩)
    refine ⟨by simpa using hshort, fun l₃ us hus => ?_⟩
    simpa using hw _ (hcs.rule₃ hts hus fun h h' h'' => ⟨_, .condElse l l₁ l₂ l₃ h h' h''⟩)
  refine .bind (carries_condition hinner yes) fun _ => ?_
  refine .bind (hinner.block behind) fun _ => ?_
  refine carries_eatWord_bind (D := B.before .block) (fun _ hw => hw.2) ?_ ?_
  · refine .bind (hinner.block B) fun _ => ?_
    exact carries_pure fun _ => id
  · exact carries_pure fun _ hw => hw.1

theorem ends_loop (hc : c.Plain) (hcurrent : c.current = .keyword .loopWord)
    (hw : (B.before .statement).Holds w) :
    Ends w c (fun _ => B) (loop inner c) := by
  let body : Beginning L := B.before .block
  let test : Beginning L := (body.mark .rightParen).before (.item .expression)
  refine ends_advance_bind (B := test.mark .leftParen) hc hcurrent rfl ?_ fun word => ?_
  · intro l l₁ cs hcs l₂ ts hts
    simpa using hw _ (hcs.rule₂ hts fun h h' => ⟨_, .loop l l₁ l₂ h h'⟩)
  refine .bind (carries_condition hinner body) fun _ => ?_
  refine .bind (hinner.block B) fun _ => ?_
  exact carries_pure fun _ => id

theorem ends_ret (hc : c.Plain) (hcurrent : c.current = .keyword .returnWord)
    (hw : (B.before .statement).Holds w) :
    Ends w c (fun _ => B) (ret inner c) := by
  let value : Beginning L := B.before (.item .expression)
  refine ends_advance_bind (B := value) hc hcurrent rfl ?_ fun word => ?_
  · intro l ts hts
    simpa using hw _ (hts.rule fun h => ⟨_, .ret l h⟩)
  refine .bind (hinner.expression B) fun _ => ?_
  exact carries_pure fun _ => id

theorem carries_simple :
    Carries (B.before .statement) (simple inner) fun _ => B := by
  let value : Beginning L := B.before (.item .expression)
  -- an expression is a statement by itself, or the target of an assignment
  let target : Beginning L := B.also fun w => ∀ how line,
    value.Holds (w ++ [(Assignment.mark how).at line])
  refine carries_read_bind fun start => ?_
  refine .bind ((hinner.expression target).weaken ?_) fun _ => ?_
  · intro w hw ts hts
    obtain ⟨t, ts, rfl⟩ := hts.exists_cons rfl
    refine ⟨hw _ (hts.rule fun h => ⟨_, .expr h⟩), fun how line us hus => ?_⟩
    simpa using hw _ (hts.rule₂ hus fun h h' => ⟨_, .assign line how h h'⟩)
  refine carries_eat_bind (D := value) (fun _ hw => hw.2 .define) ?_ ?_
  · refine .bind (hinner.expression B) fun _ => ?_
    exact carries_pure fun _ => id
  refine carries_eat_bind (D := value) (fun _ hw => hw.2 .reassign) ?_ ?_
  · refine .bind (hinner.expression B) fun _ => ?_
    exact carries_pure fun _ => id
  · exact carries_pure fun _ hw => hw.1

theorem carries_statement :
    Carries (B.before .statement) (statement st inner) fun _ => B := by
  intro c w hc hw
  rw [statement, current_bind]
  generalize hcurrent : c.current = tok
  split
  · have hblock : (B.before .block).Holds w :=
      fun ts hts => hw ts (hts.rule fun h => ⟨_, .nested h⟩)
    exact (hinner.block B c w hc hblock).bind hc fun _ => carries_pure fun _ => id
  · exact absurd hcurrent (hc.getFree c.here (by simp [Cursor.tokens]))
  · exact ends_cond hinner B hc hcurrent hw
  · exact ends_loop hinner B hc hcurrent hw
  · exact ends_ret hinner B hc hcurrent hw
  · exact carries_simple hinner B c w hc hw

/-- One statement more, where any statements lead to `B`. -/
theorem carries_closedStatement :
    Carries (B.before .statements) (closedStatement st inner)
      fun _ => B.before .statements := by
  let next : Beginning L := B.before .statements
  refine .bind ((carries_statement hinner (next.mark .semicolon)).weaken ?_) fun _ => ?_
  · intro w hw ts hts l us hus
    simpa using hw _ (hts.rule₂ hus fun h h' => ⟨_, .followed l h h'⟩)
  refine .bind (carries_expect .semicolon) fun _ => ?_
  exact carries_pure fun _ => id

theorem carries_blockBody :
    Carries (B.before .block) (blockBody st inner) fun _ => B := by
  let next : Beginning L := (B.mark .rightBrace).before .statements
  refine carries_read_bind fun start => ?_
  refine .bind ((carries_expect (B := next) .leftBrace).weaken ?_) fun _ => ?_
  · intro w hw l ts hts l₁
    simpa using hw _ (hts.rule fun h => ⟨_, .block l l₁ h⟩)
  refine .bind (Carries.iterate (B := next) (D := B) (fun stmts => ?_) []) fun _ => ?_
  · refine carries_eat_bind (D := B) ?_ (carries_pure fun _ => id) ?_
    · exact fun w hw => by simpa using hw [] fun _ _ => ⟨_, .empty⟩
    refine carries_read_bind fun ended => ?_
    split
    · exact carries_failHere
    · refine .bind (carries_closedStatement hinner (B.mark .rightBrace)) fun _ => ?_
      exact carries_pure fun _ => id
  · exact carries_pure fun _ => id

end Levels

/-! ### Programs -/

theorem carries_levels (L : List Located → Prop) (st : Setting) (n : Nat) :
    InnerCarries L (levels st n) := by
  have hdeep {α : Type} (B : Beginning L) (B' : α → Beginning L) :
      Carries B (failHere fun _ => .nestingTooDeep st.limits.nesting) B' :=
    fun c _ _ _ => .inl ⟨c.line, st.limits.nesting, rfl⟩
  induction n with
  | zero => exact ⟨fun B => hdeep _ _, fun B => hdeep _ _⟩
  | succ n ih => exact ⟨fun B => carries_comparison ih B, fun B => carries_blockBody ih B⟩

theorem carries_program (L : List Located → Prop) (st : Setting) (B : Beginning L) :
    Carries (B.before .statements) (program st) fun _ => B := by
  refine Carries.iterate (fun stmts => ?_) []
  refine carries_read_bind fun ended => ?_
  split
  · refine carries_pure fun w hw => ?_
    simpa [Turn.select] using hw [] fun _ _ => ⟨_, .empty⟩
  · refine .bind (carries_closedStatement (carries_levels L st _) B) fun _ => ?_
    exact carries_pure fun _ => id

/-- **When the parser fails, what it has read is the beginning of a program**, and the error is on the
line of the token that it stands on. -/
theorem completes_of_program_error {st : Setting} {e : Error} (hc : c.Plain)
    (h : program st c = (.error e, c')) (hdeep : ¬ e.IsTooDeep) :
    ∃ used us g, c.Moves used c' ∧ Derivable .statements (used ++ us) ∧
      e = .grammar c'.line g := by
  let whole := Beginning.whole (Derivable .statements)
  have hstart : (whole.before .statements).Holds [] := fun ts hts => hts
  have hends := carries_program _ st whole c [] hc hstart
  rw [h] at hends
  exact hends.resolve_left hdeep

end Parser

end TableScript
