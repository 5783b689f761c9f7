import TableScript.Program.Parser

/-!
# Cursors that move

A parser that succeeds has moved its cursor over some tokens.  `Cursor.Moves c used c'` says that
`c'` stands behind the tokens `used` that `c` stands on; moves compose (`Moves.trans`) and can be cut
anywhere (`Moves.split`).  The basic steps of a parser are then equations: each says where the cursor
goes, so that proofs about the grammar need not look inside of a cursor.

Repetition has two rules.  `iterate_ok` is for a loop that is known to have ended well: an invariant
of its turns holds when it ends.  `iterate_again` and `iterate_finish` are for running it forward,
where a turn has to have consumed a token; they hold of parsers on all states.
-/

namespace TableScript

namespace Cursor

variable {c c' c'' : Cursor} {ts us : List Located} {t : Located}

/-- The token under the cursor and those behind it. -/
def tokens (c : Cursor) : List Located := c.here :: c.later

/-- The tokens end with the mark for the end of the input. -/
def Closed (c : Cursor) : Prop := ∃ line, c.tokens.getLast? = some ⟨.endOfInput, line⟩

/-- From `c`, taking the tokens `used` leads to `c'`. -/
def Moves (c : Cursor) (used : List Located) (c' : Cursor) : Prop := c.tokens = used ++ c'.tokens

theorem tokens_inj (h : c.tokens = c'.tokens) : c = c' := by
  obtain ⟨here, later⟩ := c
  obtain ⟨here', later'⟩ := c'
  obtain ⟨rfl, rfl⟩ := List.cons.inj h
  rfl

theorem Moves.refl (c : Cursor) : c.Moves [] c := rfl

theorem Moves.eq_of_nil (h : c.Moves [] c') : c = c' := tokens_inj h

theorem Moves.trans (h : c.Moves ts c') (h' : c'.Moves us c'') : c.Moves (ts ++ us) c'' := by
  rw [Moves, h, h', List.append_assoc]

/-- A move can be cut in two anywhere. -/
theorem Moves.split (h : c.Moves (ts ++ us) c'') : ∃ c', c.Moves ts c' ∧ c'.Moves us c'' := by
  rw [Moves, List.append_assoc] at h
  rcases hrest : us ++ c''.tokens with - | ⟨t, rest⟩
  · simp [tokens] at hrest
  · exact ⟨⟨t, rest⟩, by rw [Moves, h, hrest, tokens], by rw [Moves, hrest, tokens]⟩

theorem Moves.remaining (h : c.Moves ts c') : c.remaining = ts.length + c'.remaining := by
  have hlength := congrArg List.length h
  simp only [tokens, List.length_append, List.length_cons] at hlength
  simp only [Cursor.remaining]
  omega

theorem Moves.remaining_lt (h : c.Moves ts c') (hts : ts ≠ []) : c'.remaining < c.remaining := by
  have hpos := List.length_pos_iff.2 hts
  have hremaining := h.remaining
  omega

theorem Moves.closed (h : c.Moves ts c') (hc : c.Closed) : c'.Closed := by
  obtain ⟨line, hline⟩ := hc
  refine ⟨line, ?_⟩
  rw [h, List.getLast?_append] at hline
  rcases hlast : c'.tokens.getLast? with - | t
  · simp [tokens] at hlast
  · simpa [hlast] using hline

/-! ### One step -/

@[simp] theorem advance_fst (c : Cursor) : c.advance.1 = c.here := by
  unfold advance
  split
  · rfl
  · split <;> rfl

/-- The cursor stays at the end. -/
theorem advance_of_atEnd (h : c.atEnd = true) : c.advance.2 = c := by
  rw [advance, if_pos h]

theorem Moves.here (h : c.Moves (t :: us) c') : c.here = t := (List.cons.inj h).1

theorem Moves.current (h : c.Moves (t :: us) c') : c.current = t.token := by rw [Cursor.current, h.here]

theorem Moves.line (h : c.Moves (t :: us) c') : c.line = t.line := by rw [Cursor.line, h.here]

/-- Taking the first token of a move leaves the rest of it. -/
theorem Moves.advance (h : c.Moves (t :: us) c') (ht : t.token.isEnd = false) :
    c.advance.2.Moves us c' := by
  obtain ⟨here, later⟩ := c
  obtain ⟨hhere, hlater⟩ := List.cons.inj h
  rcases later with - | ⟨t', rest⟩
  · simp [tokens] at hlater
  · have hadvance : Cursor.advance ⟨here, t' :: rest⟩ = (here, ⟨t', rest⟩) := by
      rw [← hhere] at ht
      simp only at ht
      simp [Cursor.advance, atEnd, Cursor.current, ht]
    rw [hadvance]
    exact hlater

theorem Moves.advance_eq (h : c.Moves [t] c') (ht : t.token.isEnd = false) : c.advance.2 = c' :=
  (h.advance ht).eq_of_nil

/-- Before the end of a closed list, taking a token is a move. -/
theorem moves_advance (hc : c.Closed) (hend : c.current.isEnd = false) :
    c.Moves [c.here] c.advance.2 := by
  obtain ⟨here, later⟩ := c
  obtain ⟨line, hline⟩ := hc
  rcases later with - | ⟨t, rest⟩
  · -- a closed list of one token is at its end
    obtain rfl : here = ⟨.endOfInput, line⟩ := by simpa [tokens] using hline
    simp [current, Token.isEnd] at hend
  · have hadvance : Cursor.advance ⟨here, t :: rest⟩ = (here, ⟨t, rest⟩) := by
      simp only [current] at hend
      simp [Cursor.advance, atEnd, current, hend]
    rw [hadvance]
    rfl

/-- The same for a token that is known. -/
theorem moves_of_current {tok : Token} (hc : c.Closed) (h : c.current = tok)
    (htok : tok.isEnd = false) : c.Moves [⟨tok, c.line⟩] c.advance.2 := by
  subst h
  exact moves_advance hc htok

@[simp] theorem line_here (c : Cursor) : c.here.line = c.line := rfl

@[simp] theorem token_here (c : Cursor) : c.here.token = c.current := rfl

/-! ### Lists of tokens -/

/-- A list without the mark for the end gets one. -/
theorem tokens_ofList (hts : ∀ t ∈ ts, t.token.isEnd = false) :
    ∃ line, (ofList ts).tokens = ts ++ [⟨.endOfInput, line⟩] := by
  cases ts with
  | nil => exact ⟨1, rfl⟩
  | cons t ts =>
    have hlast : (ts.getLastD t).token.isEnd = false := by
      refine hts _ ?_
      rw [List.getLastD_eq_getLast?]
      rcases hlast : ts.getLast? with - | u
      · simp
      · simp [List.mem_of_getLast? hlast]
    refine ⟨(ts.getLastD t).line, ?_⟩
    rw [ofList, tokens, closing, hlast]
    rfl

/-- A list that ends with the mark stays as it is. -/
theorem tokens_ofList_of_end (ts : List Located) (line : Nat) :
    (ofList (ts ++ [⟨.endOfInput, line⟩])).tokens = ts ++ [⟨.endOfInput, line⟩] := by
  cases ts with
  | nil => rfl
  | cons t ts =>
    have hlast : (List.getLastD (ts ++ [⟨.endOfInput, line⟩]) t).token.isEnd = true := by
      rw [List.getLastD_eq_getLast?, List.getLast?_append]
      rfl
    rw [List.cons_append, ofList, tokens, closing, if_pos hlast, List.append_nil]

/-- A list gets a mark for the end unless it has one. -/
theorem closed_ofList (ts : List Located) : (ofList ts).Closed := by
  cases ts with
  | nil => exact ⟨1, rfl⟩
  | cons t ts =>
    rw [ofList, Closed, tokens, closing]
    split
    · next hend =>
      refine ⟨(ts.getLastD t).line, ?_⟩
      rw [List.append_nil, List.getLast?_cons, ← List.getLastD_eq_getLast?]
      generalize ts.getLastD t = last at hend
      obtain ⟨token, line⟩ := last
      cases token with
      | endOfInput => rfl
      | _ => cases hend
    · refine ⟨(ts.getLastD t).line, ?_⟩
      rw [← List.cons_append, List.getLast?_append]
      rfl

end Cursor

namespace Parser

variable {α β : Type} {c c' : Cursor}

/-! ### The basic steps as equations -/

theorem current_bind (f : Token → Parser α) (c : Cursor) : (current >>= f) c = f c.current c := rfl

theorem line_bind (f : Nat → Parser α) (c : Cursor) : (line >>= f) c = f c.line c := rfl

theorem atEnd_bind (f : Bool → Parser α) (c : Cursor) : (atEnd >>= f) c = f c.atEnd c := rfl

theorem advance_bind (f : Located → Parser α) (c : Cursor) :
    (advance >>= f) c = f c.here c.advance.2 := by
  show f c.advance.1 c.advance.2 = _
  rw [Cursor.advance_fst]

@[simp] theorem beq_symbol (t : Token) (m : Symbol) : (t == .symbol m) = true ↔ t = .symbol m := by
  cases t with
  | symbol m' =>
    show (m' == m) = true ↔ _
    simp
  | _ => exact ⟨fun h => (by cases h), fun h => (by cases h)⟩

@[simp] theorem beq_keyword (t : Token) (w : Keyword) :
    (t == .keyword w) = true ↔ t = .keyword w := by
  cases t with
  | keyword w' =>
    show (w' == w) = true ↔ _
    simp
  | _ => exact ⟨fun h => (by cases h), fun h => (by cases h)⟩

/-- The symbol under the cursor is taken. -/
theorem eat_bind_of_eq {m : Symbol} (f : Bool → Parser α) (h : c.current = .symbol m) :
    (eat m >>= f) c = f true c.advance.2 := by
  show (match Cursor.eat (.symbol m) c with | (b, c') => f b c') = _
  rw [Cursor.eat, if_pos ((beq_symbol _ _).2 h)]

/-- Another token is left where it is. -/
theorem eat_bind_of_ne {m : Symbol} (f : Bool → Parser α) (h : c.current ≠ .symbol m) :
    (eat m >>= f) c = f false c := by
  show (match Cursor.eat (.symbol m) c with | (b, c') => f b c') = _
  rw [Cursor.eat, if_neg (mt (beq_symbol _ _).1 h)]

theorem eatWord_bind_of_eq {w : Keyword} (f : Bool → Parser α) (h : c.current = .keyword w) :
    (eatWord w >>= f) c = f true c.advance.2 := by
  show (match Cursor.eat (.keyword w) c with | (b, c') => f b c') = _
  rw [Cursor.eat, if_pos ((beq_keyword _ _).2 h)]

theorem eatWord_bind_of_ne {w : Keyword} (f : Bool → Parser α) (h : c.current ≠ .keyword w) :
    (eatWord w >>= f) c = f false c := by
  show (match Cursor.eat (.keyword w) c with | (b, c') => f b c') = _
  rw [Cursor.eat, if_neg (mt (beq_keyword _ _).1 h)]

theorem expect_of_eq {m : Symbol} (h : c.current = .symbol m) :
    expect m c = (.ok (), c.advance.2) := by
  rw [expect, eat_bind_of_eq _ h]
  rfl

theorem expect_of_ne {m : Symbol} (h : c.current ≠ .symbol m) :
    expect m c = failHere (.expected (.mark m)) c := by
  rw [expect, eat_bind_of_ne _ h]
  rfl

theorem expect_bind_of_eq {m : Symbol} (f : Unit → Parser α) (h : c.current = .symbol m) :
    (expect m >>= f) c = f () c.advance.2 :=
  Action.bind_of_ok (expect_of_eq h)

theorem commaList_of_eq {item : Parser α} {closing : Symbol} (h : c.current = .symbol closing) :
    commaList item closing c = (.ok [], c.advance.2) := by
  rw [commaList, eat_bind_of_eq _ h]
  rfl

theorem commaList_of_ne {item : Parser α} {closing : Symbol} (h : c.current ≠ .symbol closing) :
    commaList item closing c = iterate (commaList.turn item closing) [] c := by
  rw [commaList, eat_bind_of_ne _ h]
  rfl

/-! ### Repetition -/

section

open HasCursor

variable {σ : Type} [HasCursor σ] {turn : α → ParserOn σ (Turn α β)} {a a' : α} {s s' : σ}

theorem iterate_again (h : turn a s = (.ok (.again a'), s'))
    (hlt : (cursor s').remaining < (cursor s).remaining) :
    iterate turn a s = iterate turn a' s' := by
  rw [iterate]
  simp only [h, if_pos hlt]

theorem iterate_finish {b : β} (h : turn a s = (.ok (.finish b), s')) :
    iterate turn a s = (.ok b, s') := by
  rw [iterate]
  simp only [h]

theorem iterate_error {e : Error} (h : turn a s = (.error e, s')) :
    iterate turn a s = (.error e, s') := by
  rw [iterate]
  simp only [h]

theorem iterate_refused (h : turn a s = (.ok (.again a'), s'))
    (hle : ¬ (cursor s').remaining < (cursor s).remaining) :
    iterate turn a s = failHere .unexpectedToken s' := by
  rw [iterate]
  simp only [h, if_neg hle]

/-- What the turns of a loop keep, the loop keeps, however it ends. -/
theorem iterate_keeps {P : σ → Prop} (hturn : ∀ a {s r s₁}, P s → turn a s = (r, s₁) → P s₁)
    {r : Except Error β} {s₂ : σ} (hP : P s) (hs : iterate turn a s = (r, s₂)) : P s₂ := by
  fun_induction iterate turn a s with
  | case1 a s e s₁ hfirst | case2 a s b s₁ hfirst =>
    cases hs
    exact hturn a hP hfirst
  | case3 a s a₁ s₁ hfirst _ ih => exact ih (hturn a hP hfirst) hs
  | case4 a s a₁ s₁ hfirst _ =>
    cases hs
    exact hturn a hP hfirst

end

/-- A loop that ended well has come to a turn that finishes, with the invariant of its turns. -/
theorem iterate_ok {turn : α → Parser (Turn α β)} {P : α → Cursor → Prop}
    (hagain : ∀ a c a' c', P a c → turn a c = (.ok (.again a'), c') → P a' c')
    {a : α} {b : β} (hP : P a c) (h : iterate turn a c = (.ok b, c')) :
    ∃ a₁ c₁, P a₁ c₁ ∧ turn a₁ c₁ = (.ok (.finish b), c') := by
  fun_induction iterate turn a c with
  | case1 a c e c₁ hturn => cases h
  | case2 a c b₁ c₁ hturn =>
    cases h
    exact ⟨a, c, hP, hturn⟩
  | case3 a c a₁ c₁ hturn hlt ih => exact ih (hagain a c a₁ c₁ hP hturn) h
  | case4 a c a₁ c₁ hturn hlt => cases h

end Parser

end TableScript
