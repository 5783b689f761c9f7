import TableScript.Proofs.Parsing.Completeness
import TableScript.Proofs.Parsing.Targets

/-!
# The parser accepts its grammar

A list of tokens is accepted with a tree exactly when the tree is derivable from the tokens, and no
list has two trees (`program_eq_ok_iff_derives`).

Soundness holds whatever the limits are.  Completeness was proved for settings with more levels of
nesting than tokens.  A setting with fewer levels does the same unless it fails for want of them
(`program_deeper`), so what is needed of the limits is only that this failure does not arise.
-/

namespace TableScript

variable {file : Option String} {fetch : Nat → String → Except Error Program}
variable {ts : List Located}

/-! ### Where a program ends -/

/-- The mark for the end is not among the tokens. -/
def EndFree (ts : List Located) : Prop := ∀ t ∈ ts, t.token.isEnd = false

@[simp] theorem endFree_nil : EndFree [] := by simp [EndFree]

@[simp] theorem endFree_cons {t : Located} :
    EndFree (t :: ts) ↔ t.token.isEnd = false ∧ EndFree ts := List.forall_mem_cons

@[simp] theorem endFree_append {us : List Located} :
    EndFree (ts ++ us) ↔ EndFree ts ∧ EndFree us := List.forall_mem_append

/-- What stands before the first mark for the end. -/
theorem EndFree.takeWhile_append {t : Located} {us : List Located} (h : EndFree ts)
    (ht : t.token.isEnd = true) :
    (ts ++ t :: us).takeWhile (fun t => !t.token.isEnd) = ts := by
  rw [List.takeWhile_append_of_pos (by simpa [EndFree] using h),
    List.takeWhile_cons_of_neg (by simp only [ht]; decide), List.append_nil]

theorem Derives.endFree {k : Category} {a : k.Tree} (h : Derives file fetch k ts a) :
    EndFree ts := by
  induction h with
  | number | bool | text | var | name | get => simp [Token.isEnd]
  | noItems | empty => exact endFree_nil
  | bare _ ih | unsigned _ ih | factor _ ih | summand _ ih | single _ ih | one _ ih | items _ ih
  | nested _ ih | expr _ ih => exact ih
  | _ => simp_all [Token.isEnd]

namespace Parser

/-- A cursor that has moved from the first token to an end has moved over all tokens. -/
theorem eq_of_moves_ofList {used : List Located} {c' : Cursor}
    (hts : EndFree ts) (hused : EndFree used)
    (hmove : (Cursor.ofList ts).Moves used c') (hend : c'.atEnd = true) : used = ts := by
  obtain ⟨line, htokens⟩ := Cursor.tokens_ofList hts
  -- both lists are what stands before the first mark for the end
  have hsplit : ts ++ [⟨.endOfInput, line⟩] = used ++ c'.here :: c'.later := htokens ▸ hmove
  have hfirst := congrArg (List.takeWhile fun t => !t.token.isEnd) hsplit
  rw [hts.takeWhile_append rfl, hused.takeWhile_append hend] at hfirst
  exact hfirst.symm

/-- From the first token there is a way over all of them to an end. -/
theorem exists_moves_ofList (hts : EndFree ts) :
    ∃ c', (Cursor.ofList ts).Moves ts c' ∧ c'.atEnd = true := by
  obtain ⟨line, htokens⟩ := Cursor.tokens_ofList hts
  exact ⟨⟨⟨.endOfInput, line⟩, []⟩, htokens, rfl⟩

/-! ### More levels of nesting -/

end Parser

/-- The same setting with `k` more levels of nesting. -/
def Setting.deeper (st : Setting) (k : Nat) : Setting :=
  { st with limits := { st.limits with nesting := k + st.limits.nesting } }

/-- The error says that nesting is too deep. -/
def Error.IsTooDeep (e : Error) : Prop := ∃ line limit, e = .grammar line (.nestingTooDeep limit)

namespace Parser

/-- More levels of nesting change nothing unless there were too few. -/
theorem program_deeper (st : Setting) (k : Nat) (c : Cursor) :
    SameUnless Error.IsTooDeep (program st c).1 (program (st.deeper k) c).1 := by
  have hle : st.limits.nesting ≤ (st.deeper k).limits.nesting := Nat.le_add_left _ _
  refine program_of_le st (st.deeper k) hle rfl (fun line => ⟨line, _, rfl⟩) fun file _ line => ?_
  exact SameUnless.refl (st.fetch line file)

variable {st : Setting} {p q : Program}

theorem derives_of_program_eq_ok (hts : EndFree ts)
    (h : (program st (Cursor.ofList ts)).1 = .ok p) :
    Derives st.file st.fetch .statements ts p := by
  obtain ⟨used, hmove, hp, hend⟩ := program_ok (Cursor.closed_ofList ts) (Prod.ext h rfl)
  rwa [← eq_of_moves_ofList hts hp.endFree hmove hend]

theorem program_deeper_of_derives (h : Derives st.file st.fetch .statements ts p) {k : Nat}
    (hk : ts.length < k) : (program (st.deeper k) (Cursor.ofList ts)).1 = .ok p := by
  obtain ⟨c', hmove, hend⟩ := exists_moves_ofList h.endFree
  have hroom : ts.length < (st.deeper k).limits.nesting := by
    show ts.length < k + st.limits.nesting
    omega
  have hderives : Derives (st.deeper k).file (st.deeper k).fetch .statements ts p := h
  rw [program_of_derives hderives hroom hmove hend]

/-- Tokens have at most one tree. -/
theorem derives_unique (hp : Derives st.file st.fetch .statements ts p)
    (hq : Derives st.file st.fetch .statements ts q) : p = q := by
  have hok := program_deeper_of_derives hp (Nat.lt_succ_self _)
  rw [program_deeper_of_derives hq (Nat.lt_succ_self _)] at hok
  exact (Except.ok.inj hok).symm

/-- The parser accepts exactly the tokens that the grammar derives, with the tree that they denote,
and they denote only one.  This is so as long as nesting is not found too deep, which it never is
with more levels than tokens. -/
theorem program_eq_ok_iff_derives (st : Setting) (ts : List Located) (hts : EndFree ts)
    (hdeep : ts.length < st.limits.nesting ∨
      ∀ e, (program st (Cursor.ofList ts)).1 = .error e → ¬ e.IsTooDeep) :
    (∀ p, (program st (Cursor.ofList ts)).1 = .ok p ↔
      Derives st.file st.fetch .statements ts p) ∧
    (∀ p q, Derives st.file st.fetch .statements ts p →
      Derives st.file st.fetch .statements ts q → p = q) := by
  refine ⟨fun p => ⟨derives_of_program_eq_ok hts, fun h => ?_⟩, fun p q => derives_unique⟩
  rcases hdeep with hroom | hdeep
  · obtain ⟨c', hmove, hend⟩ := exists_moves_ofList hts
    rw [program_of_derives h hroom hmove hend]
  · -- there may be too few levels for completeness: go to a deeper setting and come back
    have hok := program_deeper_of_derives h (Nat.lt_succ_self _)
    obtain hsame | ⟨e, he, htoo⟩ := program_deeper st (ts.length + 1) (Cursor.ofList ts)
    · rwa [hsame] at hok
    · exact absurd htoo (hdeep e he)

/-- The tokens of `y = a - b - (c) * d;` on three lines. -/
def differences : List Located :=
  [⟨.name "y", 1⟩, ⟨.symbol .assign, 1⟩, ⟨.name "a", 1⟩, ⟨.symbol .minus, 2⟩, ⟨.name "b", 2⟩,
    ⟨.symbol .minus, 2⟩, ⟨.symbol .leftParen, 3⟩, ⟨.name "c", 3⟩, ⟨.symbol .rightParen, 3⟩,
    ⟨.symbol .star, 3⟩, ⟨.name "d", 3⟩, ⟨.symbol .semicolon, 3⟩]

/-- Eight levels of nesting, and no files to import. -/
def shallow : Setting :=
  ⟨{ nesting := 8 }, none, fun line file => .error (.grammar line (.importNotFound file))⟩

theorem derives_differences :
    EndFree differences ∧ ¬ differences.length < shallow.limits.nesting ∧
      Derives shallow.file shallow.fetch .statements differences
        [.assign 1 .define (.var 1 "y")
          (.arith 2 .sub (.arith 2 .sub (.var 1 "a") (.var 2 "b"))
            (.arith 3 .mul (.var 3 "c") (.var 3 "d")))] := by
  have hfree : EndFree differences := by simp [differences, Token.isEnd]
  have hok : (program shallow (Cursor.ofList differences)).1 =
      .ok [.assign 1 .define (.var 1 "y")
        (.arith 2 .sub (.arith 2 .sub (.var 1 "a") (.var 2 "b"))
          (.arith 3 .mul (.var 3 "c") (.var 3 "d")))] := by with_unfolding_all rfl
  refine ⟨hfree, by decide, ((program_eq_ok_iff_derives _ _ hfree (.inr ?_)).1 _).1 hok⟩
  intro e he
  rw [hok] at he
  cases he

end Parser

end TableScript
