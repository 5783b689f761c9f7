import TableScript.Proofs.Parsing.Soundness

/-!
# Every turn takes a token

Repetition refuses a turn that asks for another one without having taken a token.  In the grammar this
never happens: each turn that goes on has taken a mark, an operator or a semicolon (`loopsAdvance`,
`advances_programTurn`).  So the loops end by themselves, and within one text the tokens that are left
are what they are counted by.
-/

namespace TableScript.Parser

variable {α β : Type} {c c' : Cursor}

/-- Each turn that asks for another one has taken a token. -/
def Advances (turn : α → Parser (Turn α β)) : Prop :=
  ∀ a a' c c', c.Closed → turn a c = (.ok (.again a'), c') → c'.remaining < c.remaining

/-- The loops of the grammar within one level of nesting. -/
structure LoopsAdvance (st : Setting) (inner : Inner) : Prop where
  calls : Advances (postfixTurn inner)
  products : Advances (chainTurn productOp? (signed st inner))
  sums : Advances (chainTurn sumOp? (product st inner))
  names : ∀ closing, Advances (commaList.turn name closing)
  expressions : ∀ closing, Advances (commaList.turn inner.expression closing)
  entries : ∀ closing, Advances (commaList.turn (entry inner) closing)
  statements : Advances (blockTurn st inner)

theorem advances_chainTurn {op? : Token → Option ArithOp} {operand : Parser Expr}
    {G : List Located → Expr → Prop} (hend : op? .endOfInput = none) (hoperand : Sound operand G) :
    Advances (chainTurn op? operand) := by
  intro e e' c c' hc h
  obtain ⟨op, r, us, -, -, hmove, -⟩ := chainTurn_again hend hoperand hc h
  exact hmove.remaining_lt (by simp)

theorem advances_commaList_turn {item : Parser α} {G : List Located → α → Prop}
    (hitem : Sound item G) (closing : Symbol) : Advances (commaList.turn item closing) := by
  intro items items' c c' hc h
  obtain ⟨a, c₁, ha, rfl, ⟨hcomma, -⟩ | ⟨-, hr⟩⟩ := commaList_turn_ok h
  · obtain ⟨us, hmove, -⟩ := hitem _ _ _ hc ha
    have hmark := c₁.moves_of_current (hmove.closed hc) hcomma rfl
    exact (hmove.trans hmark).remaining_lt (by simp)
  · cases hr

theorem remaining_lt_of_closedStatement {st : Setting} {inner : Inner} {s : Stmt}
    (hinner : InnerSound st inner) (hc : c.Closed)
    (h : closedStatement st inner c = (.ok s, c')) : c'.remaining < c.remaining := by
  obtain ⟨used, hmove, hone⟩ := sound_closedStatement hinner _ _ _ hc h
  exact hmove.remaining_lt fun hnil =>
    (hone [] [] .empty).ne_nil_of_cons (by rw [hnil, List.append_nil])

theorem loopsAdvance {st : Setting} {inner : Inner} (hinner : InnerSound st inner) :
    LoopsAdvance st inner where
  calls := by
    intro e e' c c' hc h
    obtain ⟨us, hne, hmove, -⟩ := postfixTurn_again hinner hc h
    exact hmove.remaining_lt hne
  products := advances_chainTurn rfl (sound_signed hinner)
  sums := advances_chainTurn rfl (sound_product hinner)
  names := by
    have hname : Sound name (Derives st.file st.fetch (.item .name)) := sound_name
    exact advances_commaList_turn hname
  expressions := advances_commaList_turn hinner.expression
  entries := advances_commaList_turn (sound_entry hinner)
  statements := by
    intro stmts stmts' c c' hc h
    obtain ⟨hr, -⟩ | ⟨s, -, hs⟩ := blockTurn_ok h
    · cases hr
    · exact remaining_lt_of_closedStatement hinner hc hs

theorem advances_programTurn (st : Setting) : Advances (programTurn st (outermost st)) := by
  intro stmts stmts' c c' hc h
  obtain ⟨hr, -⟩ | ⟨s, -, hs⟩ := programTurn_ok h
  · cases hr
  · exact remaining_lt_of_closedStatement (sound_levels st _) hc hs

end TableScript.Parser
