import TableScript.Proofs.Parsing.Beginnings

/-!
# Errors stand at the first wrong token

A parser that fails on tokens without imports has stopped before the first token that no program has at
its place (`program_error_earliest`).  What it has taken is the beginning of a program, which is read in
every setting with levels enough.  With the next token behind it, it is not, whatever follows and
whatever the setting; and if there is no next token, it is not a program by itself.

The first half is the walk of the module on beginnings.  For the second, the grammar looks at one token
at a time, so two texts that begin alike are parsed alike up to where they part (`SharesFront`): the
failure is the same for all of them.  The setting does not matter, since nothing was imported, the file
is only noted, and the levels of nesting were enough.
-/

namespace TableScript

namespace Cursor

variable {c : Cursor} {ts : List Located}

theorem remaining_advance_le (c : Cursor) : c.advance.2.remaining ≤ c.remaining := by
  obtain ⟨here, later⟩ := c
  unfold advance
  split
  · exact Nat.le_refl _
  · split
    · exact Nat.le_refl _
    · next hlater =>
      subst hlater
      exact Nat.le_succ _

/-- Tokens before the end can be moved over, whatever follows. -/
theorem exists_moves_ofList_append (hts : EndFree ts) (us : List Located) :
    ∃ r, (ofList (ts ++ us)).Moves ts r := by
  have htokens : ∃ ending, (ofList (ts ++ us)).tokens = ts ++ (us ++ ending) := by
    simp only [← List.append_assoc]
    cases ts ++ us with
    | nil => exact ⟨_, rfl⟩
    | cons t ts => exact ⟨_, rfl⟩
  obtain ⟨ending, htokens⟩ := htokens
  rcases hrest : us ++ ending with - | ⟨t, rest⟩
  · -- a list that is closed does not stop before its end
    obtain ⟨line, hlast⟩ := closed_ofList (ts ++ us)
    rw [htokens, hrest, List.append_nil] at hlast
    have hend := hts _ (List.mem_of_getLast? hlast)
    cases hend
  · exact ⟨⟨t, rest⟩, by rw [Moves, htokens, hrest, tokens]⟩

/-- A cursor that is reached from the first token of a list has moved over a beginning of it. -/
theorem Moves.eq_take {used : List Located} (h : (ofList ts).Moves used c) (hts : EndFree ts) :
    used.length ≤ ts.length ∧ used = ts.take used.length := by
  obtain ⟨line, htokens⟩ := tokens_ofList hts
  have hsplit : ts ++ [⟨.endOfInput, line⟩] = used ++ c.tokens := htokens ▸ h
  have hle : used.length ≤ ts.length := by
    have hlength := congrArg List.length hsplit
    simp only [List.length_append, List.length_cons, List.length_nil, tokens] at hlength
    omega
  refine ⟨hle, ?_⟩
  have htake := congrArg (List.take used.length) hsplit
  rw [List.take_append_of_le_length hle, List.take_left] at htake
  exact htake.symm

end Cursor

section

variable {ts : List Located}

theorem GetFree.targets_eq_nil (h : GetFree ts) : Program.targets ts = [] := by
  fun_induction Program.targets ts with
  | case1 l name line rest ih => exact absurd rfl (h _ List.mem_cons_self)
  | case2 t rest _ ih => exact ih fun t ht => h t (List.mem_cons_of_mem _ ht)
  | case3 => rfl

theorem GetFree.tokens_ofList (h : GetFree ts) (hts : EndFree ts) :
    GetFree (Cursor.ofList ts).tokens := by
  obtain ⟨line, htokens⟩ := Cursor.tokens_ofList hts
  rw [htokens]
  intro t ht
  rcases List.mem_append.1 ht with ht | ht
  · exact h t ht
  · obtain rfl := List.mem_singleton.1 ht
    exact Token.noConfusion

end

namespace Parser

/-! ### Texts that begin alike -/

/-- Two cursors have the same tokens before them, at least one, up to `r` and `r'`. -/
def SharesFront (r r' c c' : Cursor) : Prop :=
  ∃ ts, ts ≠ [] ∧ EndFree ts ∧ c.Moves ts r ∧ c'.Moves ts r'

theorem SharesFront.here {r r' c c' : Cursor} (h : SharesFront r r' c c') : c'.here = c.here := by
  obtain ⟨ts, hne, -, hc, hc'⟩ := h
  obtain ⟨t, ts, rfl⟩ := List.exists_cons_of_ne_nil hne
  rw [hc.here, hc'.here]

/-- The exit is where the texts part. -/
theorem correspondence_sharesFront (r r' : Cursor) :
    Correspondence (fun line => line) (SharesFront r r') fun c : Cursor =>
      c.remaining ≤ r.remaining where
  current h := congrArg Located.token h.here
  line h := congrArg Located.line h.here
  advance {c c'} := by
    rintro ⟨ts, hne, hts, hc, hc'⟩
    obtain ⟨t, ts, rfl⟩ := List.exists_cons_of_ne_nil hne
    obtain ⟨ht, hts⟩ := endFree_cons.1 hts
    cases ts with
    | nil => exact .inr (Nat.le_of_eq (congrArg Cursor.remaining (hc.advance_eq ht)))
    | cons t' ts => exact .inl ⟨t' :: ts, by simp, hts, hc.advance ht, hc'.advance ht⟩
  stays {c} h := Nat.le_trans c.remaining_advance_le h
  remaining := by
    refine ⟨r.remaining, r'.remaining, ?_⟩
    rintro c c' ⟨ts, -, -, hc, hc'⟩
    show c'.remaining + r.remaining = c.remaining + r'.remaining
    rw [hc.remaining, hc'.remaining]
    omega

variable {st : Setting} {ts : List Located} {e : Error} {c c' d r : Cursor}

/-- A failure before the texts part is a failure for both. -/
theorem program_error_of_sharesFront {r' : Cursor} (h : program st c = (.error e, c'))
    (hfront : SharesFront r r' c d) (hc' : r.remaining < c'.remaining) :
    (program st d).1 = .error e := by
  have htracks : Tracks (correspondence_sharesFront r r') (fun _ => False)
      (Program.mapLines fun line => line) (program st) (program st) :=
    tracks_program _ rfl st.natural_id.agrees
  rcases htracks.same hfront h with hexit | ⟨_, -, hfalse⟩ | ⟨d', hd, -⟩
  · omega
  · exact hfalse.elim
  · rw [hd, mapResult, e.mapLine_id]

/-! ### Other settings -/

/-- A failure that is not for want of levels is a failure in every setting with the same imports. -/
theorem program_ne_ok_of_error (st' : Setting) (h : (program st c).1 = .error e)
    (hfetch : st.fetch = st'.fetch) (hdeep : ¬ e.IsTooDeep) (p : Program) :
    (program st' c).1 ≠ .ok p := by
  have hfile : (program { st with file := st'.file } c).1 = .error e := by
    rw [program_file, h]
    rfl
  have hsame : ∀ file ∈ Program.targets c.tokens, ∀ line,
      SameUnless Error.IsTooDeep (st.fetch line file) (st'.fetch line file) :=
    fun file _ line => .inl (by rw [hfetch])
  intro hok
  rcases Nat.le_total st.limits.nesting st'.limits.nesting with hle | hle
  · -- more levels change nothing
    rcases program_of_le { st with file := st'.file } st' hle rfl (fun line => ⟨line, _, rfl⟩) hsame
      with heq | ⟨e', he', htoo⟩
    · rw [hok, hfile] at heq
      cases heq
    · rw [hfile] at he'
      cases he'
      exact hdeep htoo
  · -- what succeeds with fewer levels would have succeeded here
    have hsame' : ∀ file ∈ Program.targets c.tokens, ∀ line,
        SameUnless Error.IsTooDeep (st'.fetch line file) (st.fetch line file) :=
      fun file _ line => .inl (by rw [hfetch])
    rcases program_of_le st' { st with file := st'.file } hle rfl (fun line => ⟨line, _, rfl⟩) hsame'
      with heq | ⟨e', he', -⟩
    · rw [hok, hfile] at heq
      cases heq
    · rw [hok] at he'
      cases he'

/-- Without imports it does not matter what can be imported. -/
theorem program_fetch (hc : GetFree c.tokens) (fetch : Nat → String → Except Error Program) :
    program { st with fetch } c = program st c := by
  refine program_congr rfl rfl fun file hfile => ?_
  rw [hc.targets_eq_nil] at hfile
  cases hfile

/-! ### The first wrong token -/

/-- The tokens `ts` go wrong at place `k`: up to there they are the beginning of a program, and one place
further they are not, where the end of the tokens counts as a place too. -/
structure GoesWrongAt (ts : List Located) (k : Nat) : Prop where
  le : k ≤ ts.length
  completes : ∃ us, ∀ st : Setting, (ts.take k ++ us).length < st.limits.nesting →
    ∃ p, (program st (Cursor.ofList (ts.take k ++ us))).1 = .ok p
  stuck : k < ts.length → ∀ us st p,
    (program st (Cursor.ofList (ts.take (k + 1) ++ us))).1 ≠ .ok p
  unfinished : k = ts.length → ∀ st p, (program st (Cursor.ofList ts)).1 ≠ .ok p

/-- What is derivable is read in every setting with levels enough. -/
theorem exists_program_of_derivable (h : Derivable .statements ts)
    (hroom : ts.length < st.limits.nesting) : ∃ p, (program st (Cursor.ofList ts)).1 = .ok p := by
  obtain ⟨p, hp⟩ := h st.file st.fetch
  obtain ⟨c', hmove, hend⟩ := exists_moves_ofList hp.endFree
  exact ⟨p, by rw [program_of_derives hp hroom hmove hend]⟩

/-- No text that goes on behind the token of the failure is a program. -/
theorem program_ne_ok_of_stuck {used rest : List Located} {t : Located}
    (hts : EndFree (used ++ [t] ++ rest)) (hget : GetFree (used ++ [t] ++ rest))
    (h : program st (Cursor.ofList (used ++ [t] ++ rest)) = (.error e, c'))
    (hmove : (Cursor.ofList (used ++ [t] ++ rest)).Moves used c') (hdeep : ¬ e.IsTooDeep)
    (us : List Located) (st' : Setting) (p : Program) :
    (program st' (Cursor.ofList (used ++ [t] ++ us))).1 ≠ .ok p := by
  have hfront : EndFree (used ++ [t]) := (endFree_append.1 hts).1
  obtain ⟨r, hr⟩ := Cursor.exists_moves_ofList_append hfront rest
  obtain ⟨r', hr'⟩ := Cursor.exists_moves_ofList_append hfront us
  -- the failure is one token before the texts part
  have hbefore : r.remaining < c'.remaining := by
    have hlong := hr.remaining
    have hshort := hmove.remaining
    rw [List.length_append, List.length_singleton] at hlong
    omega
  have hfails : program { st with fetch := st'.fetch } (Cursor.ofList (used ++ [t] ++ rest)) =
      (.error e, c') := by
    rw [program_fetch (hget.tokens_ofList hts), h]
  have hsame := program_error_of_sharesFront hfails ⟨_, by simp, hfront, hr, hr'⟩ hbefore
  exact program_ne_ok_of_error st' hsame rfl hdeep p

/-- **Syntax errors are reported at the earliest possible token.**  If there is nothing to import and
there are levels enough, a parser that fails has consumed the tokens before the place where they go wrong,
and its error is on the line of the token at that place. -/
theorem program_error_earliest (st : Setting) (ts : List Located) (hts : EndFree ts)
    (hget : GetFree ts) {e : Error} {c' : Cursor}
    (h : program st (Cursor.ofList ts) = (.error e, c')) (hdeep : ¬ e.IsTooDeep) :
    ∃ k, (Cursor.ofList ts).Moves (ts.take k) c' ∧ GoesWrongAt ts k ∧
      ∃ t g, (Cursor.ofList ts).tokens[k]? = some t ∧ e = .grammar t.line g := by
  have hplain : (Cursor.ofList ts).Plain := ⟨Cursor.closed_ofList ts, hget.tokens_ofList hts⟩
  obtain ⟨used, us, g, hmove, hus, he⟩ := completes_of_program_error hplain h hdeep
  obtain ⟨hle, htake⟩ := hmove.eq_take hts
  refine ⟨used.length, htake ▸ hmove, ⟨hle, ?_, ?_, ?_⟩, c'.here, g, ?_, he⟩
  · rw [← htake]
    exact ⟨us, fun st' hroom => exists_program_of_derivable hus hroom⟩
  · intro hlt us st' p
    have hnext : ts.take (used.length + 1) = used ++ [ts[used.length]] := by
      rw [List.take_succ_eq_append_getElem hlt, ← htake]
    have hsplit : ts = used ++ [ts[used.length]] ++ ts.drop (used.length + 1) := by
      rw [← hnext, List.take_append_drop]
    rw [hnext]
    generalize ts[used.length] = t at hsplit
    generalize ts.drop (used.length + 1) = rest at hsplit
    subst hsplit
    exact program_ne_ok_of_stuck hts hget h hmove hdeep us st' p
  · intro _ st' p
    have hfails : program { st with fetch := st'.fetch } (Cursor.ofList ts) = (.error e, c') := by
      rw [program_fetch (hget.tokens_ofList hts), h]
    exact program_ne_ok_of_error st' (congrArg Prod.fst hfails) rfl hdeep p
  · rw [hmove]
    simp [Cursor.tokens]

/-- The tokens of `If (a < b < c) { };` on two lines. -/
def chained : List Located :=
  [⟨.keyword .ifWord, 1⟩, ⟨.symbol .leftParen, 1⟩, ⟨.name "a", 1⟩, ⟨.symbol .less, 1⟩, ⟨.name "b", 1⟩,
    ⟨.symbol .less, 2⟩, ⟨.name "c", 2⟩, ⟨.symbol .rightParen, 2⟩, ⟨.symbol .leftBrace, 2⟩,
    ⟨.symbol .rightBrace, 2⟩, ⟨.symbol .semicolon, 2⟩]

/-- The second comparison is where they go wrong, and not the parenthesis or the block behind it. -/
theorem program_error_earliest_chained :
    (program shallow (Cursor.ofList chained)).1 = .error (.grammar 2 .chainedComparison) ∧
      GoesWrongAt chained 5 := by
  have hfree : EndFree chained := by simp [chained, Token.isEnd]
  have hget : GetFree chained := by simp [chained, GetFree]
  have hfails : program shallow (Cursor.ofList chained) =
      (.error (.grammar 2 .chainedComparison), Cursor.ofList (chained.drop 5)) := by with_unfolding_all rfl
  refine ⟨congrArg Prod.fst hfails, ?_⟩
  obtain ⟨k, hmove, hwrong, -⟩ := program_error_earliest shallow chained hfree hget hfails
    (by rintro ⟨line, limit, h⟩; cases h)
  have hk : k = 5 := by
    have hremaining := hmove.remaining
    have hle := hwrong.le
    rw [List.length_take_of_le hle] at hremaining
    have hstart : (Cursor.ofList chained).remaining = 11 := by decide
    have hstop : (Cursor.ofList (chained.drop 5)).remaining = 6 := by decide
    omega
  exact hk ▸ hwrong

end Parser

end TableScript
