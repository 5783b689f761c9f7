import TableScript.Proofs.Parsing.Scanned

/-!
# No token is lost or taken twice

A cursor can be asked for the token that it stands on, for the one behind it and for how many are left,
and it can be told to take a token.  What was taken, after any requests, is what stands before the first
mark for the end, in order, and then that mark again and again (`Faithful.taken_eq`).  A request that takes
nothing changes nothing.  The invariant is `Took`: the tokens that were taken are those of a move, with
marks behind them only if the cursor has come to one.

The end is where the cursor stands on a mark, and the count of what is left says how long the list is
behind it.  In a list with a mark in the middle they differ; in a list that was scanned they do not, since
its only mark is the last token.

A cursor holds no index.  `Tape` is the list with the index of the current token, where looking at a token
may fail.  It answers as the cursor does and never fails, because its index is always one of the list
(`Shows.performAll?`).
-/

namespace TableScript

/-! ### Equal tokens -/

namespace Token

/-- Numbers are compared as numbers, and any other token is equal to itself only. -/
inductive Same : Token → Token → Prop
  | number {x y : Float} : (x == y) = true → Same (.number x) (.number y)
  | refl {t : Token} : (∀ x, t ≠ .number x) → Same t t

variable {t u : Token}

theorem eq_of_beq_of_ne_number (ht : ∀ x, t ≠ .number x) (h : (t == u) = true) : t = u := by
  cases t with
  | number x => exact absurd rfl (ht x)
  | bool b =>
    cases u with
    | bool b' => exact congrArg Token.bool (eq_of_beq h)
    | _ => cases h
  | keyword w =>
    cases u with
    | keyword w' => exact congrArg Token.keyword (eq_of_beq h)
    | _ => cases h
  | name s =>
    cases u with
    | name s' => exact congrArg Token.name (eq_of_beq h)
    | _ => cases h
  | text s =>
    cases u with
    | text s' => exact congrArg Token.text (eq_of_beq h)
    | _ => cases h
  | symbol m =>
    cases u with
    | symbol m' => exact congrArg Token.symbol (eq_of_beq h)
    | _ => cases h
  | comment | newline | blank | endOfInput =>
    cases u <;> cases h
    rfl

theorem beq_self_of_ne_number (ht : ∀ x, t ≠ .number x) : (t == t) = true := by
  cases t with
  | number x => exact absurd rfl (ht x)
  | bool b => exact beq_self_eq_true b
  | keyword w => exact beq_self_eq_true w
  | name s => exact beq_self_eq_true s
  | text s => exact beq_self_eq_true s
  | symbol m => exact beq_self_eq_true m
  | comment | newline | blank | endOfInput => rfl

theorem beq_iff_same : (t == u) = true ↔ t.Same u := by
  constructor
  · intro h
    by_cases ht : ∀ x, t ≠ .number x
    · obtain rfl := eq_of_beq_of_ne_number ht h
      exact .refl ht
    · push Not at ht
      obtain ⟨x, rfl⟩ := ht
      cases u with
      | number y => exact .number h
      | _ => cases h
  · intro h
    cases h with
    | number h => exact h
    | refl ht => exact beq_self_of_ne_number ht

end Token

namespace Cursor

variable {c : Cursor} {ts taken used : List Located}

/-! ### Lists and their ends -/

/-- The line of the last token, or the first line if there is none. -/
def lastLine (ts : List Located) : Nat := (ts.getLast?.map Located.line).getD 1

/-- The list with a mark for the end behind it, unless its last token is one. -/
def withEnd (ts : List Located) : List Located :=
  if ts.getLast?.any (·.token.isEnd) then ts else ts ++ [⟨.endOfInput, lastLine ts⟩]

/-- The tokens before the first mark for the end. -/
def beforeEnd (ts : List Located) : List Located := ts.takeWhile fun t => !t.token.isEnd

/-- The first mark for the end, which is the one behind the list if there is none in it. -/
def firstEnd (ts : List Located) : Located :=
  (ts.find? (·.token.isEnd)).getD ⟨.endOfInput, lastLine ts⟩

theorem tokens_ofList_eq_withEnd (ts : List Located) : (ofList ts).tokens = withEnd ts := by
  cases ts with
  | nil => rfl
  | cons t ts =>
    have hlast : (t :: ts).getLast? = some (ts.getLastD t) := by
      rw [List.getLast?_cons, List.getLastD_eq_getLast?]
    rw [ofList, tokens, closing, withEnd, lastLine, hlast]
    generalize ts.getLastD t = last
    by_cases hend : last.token.isEnd = true <;> simp [hend]

theorem isEnd_firstEnd (ts : List Located) : (firstEnd ts).token.isEnd = true := by
  rw [firstEnd]
  rcases hfind : ts.find? (·.token.isEnd) with - | t
  · rw [hfind]
    rfl
  · have hend := List.find?_some hfind
    rwa [hfind]

theorem endFree_beforeEnd (ts : List Located) : EndFree (beforeEnd ts) := by
  intro t ht
  simpa using List.mem_takeWhile_imp ht

/-- A list is cut in two by its first mark for the end. -/
theorem exists_withEnd_eq (ts : List Located) :
    ∃ rest, withEnd ts = beforeEnd ts ++ firstEnd ts :: rest := by
  rcases hfind : ts.find? (·.token.isEnd) with - | t
  · -- without a mark, all tokens stand before the one that is put behind them
    have hfree : ∀ t ∈ ts, t.token.isEnd = false := by simpa using hfind
    have hlast : ts.getLast?.any (·.token.isEnd) = false := by
      rcases hlast : ts.getLast? with - | t
      · rfl
      · exact hfree t (List.mem_of_getLast? hlast)
    have hbefore : beforeEnd ts = ts := List.takeWhile_eq_self_iff.2 (by simpa using hfree)
    refine ⟨[], ?_⟩
    rw [withEnd, hlast, hbefore, firstEnd, hfind]
    rfl
  · obtain ⟨hend, us, vs, rfl, hfree⟩ := List.find?_eq_some_iff_append.1 hfind
    have hbefore : beforeEnd (us ++ t :: vs) = us :=
      EndFree.takeWhile_append (by simpa [EndFree] using hfree) hend
    rw [withEnd, hbefore, firstEnd, hfind]
    split
    · exact ⟨vs, rfl⟩
    · exact ⟨vs ++ [⟨.endOfInput, _⟩], List.append_assoc us (t :: vs) _⟩

/-- Whatever tokens a cursor has moved over, what stands before the end is those and what stands before the
end from there on. -/
theorem Moves.beforeEnd_eq (h : (ofList ts).Moves used c) (hused : EndFree used) :
    beforeEnd ts = used ++ beforeEnd c.tokens := by
  obtain ⟨rest, hrest⟩ := exists_withEnd_eq ts
  rw [Moves, tokens_ofList_eq_withEnd, hrest] at h
  have hbefore : beforeEnd (beforeEnd ts ++ firstEnd ts :: rest) = beforeEnd ts :=
    (endFree_beforeEnd ts).takeWhile_append (isEnd_firstEnd ts)
  rw [h, beforeEnd, List.takeWhile_append_of_pos (by simpa [EndFree] using hused)] at hbefore
  exact hbefore.symm

theorem beforeEnd_tokens_of_atEnd (h : c.atEnd = true) : beforeEnd c.tokens = [] :=
  endFree_nil.takeWhile_append h

theorem beforeEnd_tokens_of_not_atEnd (h : c.atEnd = false) :
    beforeEnd c.tokens = c.here :: beforeEnd c.later :=
  List.takeWhile_cons_of_pos (by simpa [atEnd] using h)

/-- The end that a cursor comes to is the first one. -/
theorem Moves.here_eq_firstEnd (h : (ofList ts).Moves used c) (hused : EndFree used)
    (hend : c.atEnd = true) : c.here = firstEnd ts := by
  have hbefore := h.beforeEnd_eq hused
  rw [beforeEnd_tokens_of_atEnd hend, List.append_nil] at hbefore
  obtain ⟨rest, hrest⟩ := exists_withEnd_eq ts
  rw [Moves, tokens_ofList_eq_withEnd, hrest, hbefore] at h
  exact (List.cons.inj (List.append_cancel_left h)).1.symm

/-! ### Requests -/

/-- What can be asked of a cursor. -/
inductive Request where
  | current
  | peekNext
  | line
  | advance
  | eat (expected : Token)
  | remaining
  | atEnd

/-- What is answered. -/
inductive Answer where
  | token (t : Token)
  | located (t : Located)
  | flag (b : Bool)
  | number (n : Nat)

/-- Answers a request. -/
def perform (c : Cursor) : Request → Answer × Cursor
  | .current => (.token c.current, c)
  | .peekNext => (.token c.peekNext, c)
  | .line => (.number c.line, c)
  | .advance => (.located c.advance.1, c.advance.2)
  | .eat expected => (.flag (c.eat expected).1, (c.eat expected).2)
  | .remaining => (.number c.remaining, c)
  | .atEnd => (.flag c.atEnd, c)

/-- Answers requests, one after another. -/
def performAll (c : Cursor) : List Request → List Answer × Cursor
  | [] => ([], c)
  | request :: requests =>
    let (answer, c) := c.perform request
    let (answers, c) := c.performAll requests
    (answer :: answers, c)

/-- The token that a request takes, if it takes one: what `advance` gives, or what `eat` has found to be
equal to what was expected. -/
def takes (c : Cursor) : Request → List Located
  | .advance => [c.advance.1]
  | .eat expected => if (c.eat expected).1 then [⟨c.current, c.line⟩] else []
  | _ => []

/-- The tokens that requests take, one after another. -/
def takesAll (c : Cursor) : List Request → List Located
  | [] => []
  | request :: requests => c.takes request ++ (c.perform request).2.takesAll requests

theorem eat_of_beq {expected : Token} (h : (c.current == expected) = true) :
    c.eat expected = (true, c.advance.2) := if_pos h

theorem eat_of_not_beq {expected : Token} (h : ¬ (c.current == expected) = true) :
    c.eat expected = (false, c) := if_neg h

theorem eat_fst (c : Cursor) (expected : Token) :
    (c.eat expected).1 = true ↔ c.current.Same expected := by
  rw [← Token.beq_iff_same]
  by_cases h : (c.current == expected) = true
  · rw [eat_of_beq h, h]
  · rw [eat_of_not_beq h]
    exact ⟨fun hfalse => (by cases hfalse), fun htrue => absurd htrue h⟩

/-- A request that takes nothing leaves the cursor where it is. -/
theorem perform_of_not_taking {request : Request} (hadvance : request ≠ .advance)
    (heat : ∀ expected, request = .eat expected → (c.eat expected).1 = false) :
    (c.perform request).2 = c := by
  cases request with
  | advance => exact absurd rfl hadvance
  | eat expected =>
    by_cases h : (c.current == expected) = true
    · have hfalse := heat expected rfl
      rw [eat_of_beq h] at hfalse
      cases hfalse
    · show (c.eat expected).2 = c
      rw [eat_of_not_beq h]
  | current | peekNext | line | remaining | atEnd => rfl

/-! ### What was taken -/

/-- From the first token of `ts`, taking `taken` leads to `c`: a move over tokens before the end, and then its
mark any number of times, which is none before the end. -/
def Took (ts taken : List Located) (c : Cursor) : Prop :=
  ∃ used n, taken = used ++ List.replicate n (firstEnd ts) ∧ EndFree used ∧
    (ofList ts).Moves used c ∧ (c.atEnd = false → n = 0)

theorem took_ofList (ts : List Located) : Took ts [] (ofList ts) :=
  ⟨[], 0, rfl, endFree_nil, .refl _, fun _ => rfl⟩

theorem Took.closed (h : Took ts taken c) : c.Closed := by
  obtain ⟨used, n, -, -, hmoves, -⟩ := h
  exact hmoves.closed (closed_ofList ts)

/-- The token under the cursor is the next one that is taken. -/
theorem Took.advance (h : Took ts taken c) : Took ts (taken ++ [c.here]) c.advance.2 := by
  have hclosed := h.closed
  obtain ⟨used, n, rfl, hused, hmoves, hn⟩ := h
  cases hend : c.atEnd with
  | true =>
    -- the mark is taken once more
    rw [hmoves.here_eq_firstEnd hused hend, advance_of_atEnd hend, List.append_assoc,
      ← List.replicate_succ']
    exact ⟨used, n + 1, rfl, hused, hmoves, fun hfalse => (by rw [hend] at hfalse; cases hfalse)⟩
  | false =>
    obtain rfl := hn hend
    have hfree : EndFree (used ++ [c.here]) :=
      endFree_append.2 ⟨hused, endFree_cons.2 ⟨hend, endFree_nil⟩⟩
    exact ⟨used ++ [c.here], 0, by simp, hfree, hmoves.trans (moves_advance hclosed hend), fun _ => rfl⟩

theorem Took.perform (h : Took ts taken c) (request : Request) :
    Took ts (taken ++ c.takes request) (c.perform request).2 := by
  cases request with
  | advance =>
    show Took ts (taken ++ [c.advance.1]) c.advance.2
    rw [advance_fst]
    exact h.advance
  | eat expected =>
    show Took ts (taken ++ if (c.eat expected).1 then [c.here] else []) (c.eat expected).2
    by_cases heat : (c.current == expected) = true
    · rw [eat_of_beq heat]
      exact h.advance
    · rw [eat_of_not_beq heat]
      simpa using h
  | current | peekNext | line | remaining | atEnd =>
    show Took ts (taken ++ []) c
    rwa [List.append_nil]

theorem Took.performAll (h : Took ts taken c) (requests : List Request) :
    Took ts (taken ++ c.takesAll requests) (c.performAll requests).2 := by
  induction requests generalizing taken c with
  | nil =>
    show Took ts (taken ++ []) c
    rwa [List.append_nil]
  | cons request requests ih =>
    have hrest := ih (h.perform request)
    rwa [List.append_assoc] at hrest

/-- The tokens before the end come first, each once, and then the mark for the end. -/
theorem Took.taken_eq (h : Took ts taken c) :
    taken = (beforeEnd ts).take taken.length ++
      List.replicate (taken.length - (beforeEnd ts).length) (firstEnd ts) := by
  obtain ⟨used, n, rfl, hused, hmoves, hn⟩ := h
  rw [hmoves.beforeEnd_eq hused]
  cases hend : c.atEnd with
  | true =>
    rw [beforeEnd_tokens_of_atEnd hend]
    simp
  | false =>
    obtain rfl := hn hend
    simp

/-- The next token is the first that was not taken. -/
theorem Took.here_eq (h : Took ts taken c) :
    c.here = (beforeEnd ts)[taken.length]?.getD (firstEnd ts) := by
  obtain ⟨used, n, rfl, hused, hmoves, hn⟩ := h
  rw [hmoves.beforeEnd_eq hused]
  cases hend : c.atEnd with
  | true =>
    rw [beforeEnd_tokens_of_atEnd hend, hmoves.here_eq_firstEnd hused hend]
    simp
  | false =>
    obtain rfl := hn hend
    rw [beforeEnd_tokens_of_not_atEnd hend]
    simp

/-- Every token is counted, as one that was taken or as one that is left. -/
theorem Took.remaining (h : Took ts taken c) :
    c.remaining + 1 + (taken.filter fun t => !t.token.isEnd).length = (withEnd ts).length := by
  obtain ⟨used, n, rfl, hused, hmoves, -⟩ := h
  have hcount : ((used ++ List.replicate n (firstEnd ts)).filter fun t => !t.token.isEnd) = used := by
    rw [List.filter_append, List.filter_eq_self.2 (by simpa [EndFree] using hused),
      List.filter_eq_nil_iff.2 (by simp [isEnd_firstEnd]), List.append_nil]
  have hlength : (ofList ts).remaining + 1 = (withEnd ts).length := by
    rw [← tokens_ofList_eq_withEnd]
    rfl
  have hmoved := hmoves.remaining
  rw [hcount]
  omega

theorem Closed.atEnd_of_remaining (h : c.Closed) (hzero : c.remaining = 0) : c.atEnd = true := by
  obtain ⟨here, later⟩ := c
  obtain ⟨line, hline⟩ := h
  obtain rfl : later = [] := List.length_eq_zero_iff.1 hzero
  obtain rfl : here = ⟨.endOfInput, line⟩ := by simpa [tokens] using hline
  rfl

/-- In a list that was scanned, nothing stands behind the first mark for the end. -/
theorem Took.remaining_eq_zero_iff {limit : Nat} {source : String} (h : Took ts taken c)
    (hscan : Token.scan limit source = .ok ts) : c.remaining = 0 ↔ c.atEnd = true := by
  refine ⟨h.closed.atEnd_of_remaining, fun hend => ?_⟩
  obtain ⟨used, n, -, hused, hmoves, -⟩ := h
  have htokens := Program.tokens_of_scan hscan
  have hbefore := hmoves.beforeEnd_eq hused
  rw [beforeEnd_tokens_of_atEnd hend, List.append_nil] at hbefore
  have hlength := congrArg List.length (hmoves.symm.trans htokens)
  -- all tokens but the last stand before the end, and the cursor has moved over them
  obtain ⟨-, -, rfl⟩ := Token.scan_eq_ok_iff.1 hscan
  rw [beforeEnd, Program.endFree_located.takeWhile_append rfl] at hbefore
  rw [hbefore] at hlength
  simpa [tokens, Cursor.remaining] using hlength

-- behind a mark in the middle, what is left is counted although it is never taken
example : (ofList [⟨.endOfInput, 4⟩, ⟨.blank, 5⟩]).atEnd = true ∧
    (ofList [⟨.endOfInput, 4⟩, ⟨.blank, 5⟩]).remaining = 2 := by decide

end Cursor

/-! ### Lists with an index -/

/-- A list of tokens and the index of the current one. -/
structure Tape where
  tokens : List Located
  position : Nat

namespace Tape

open Cursor

/-- A list, with a mark for the end, at its first token. -/
def ofList (ts : List Located) : Tape := ⟨withEnd ts, 0⟩

/-- The last index. There is none if the list is empty. -/
def last? (p : Tape) : Option Nat :=
  match p.tokens.length with
  | 0 => none
  | last + 1 => some last

/-- The token at an index, or the last one if the index is beyond it. -/
def look? (p : Tape) (i : Nat) : Option Located := p.last?.bind fun last => p.tokens[min i last]?

/-- The tape after its current token `t` was taken. It stays at a mark for the end. -/
def behind (p : Tape) (t : Located) : Tape :=
  if t.token.isEnd then p else { p with position := p.position + 1 }

/-- Answers a request. This fails if a token is looked at that is not there. -/
def perform? (p : Tape) : Request → Option (Answer × Tape)
  | .current => (p.look? p.position).map fun t => (.token t.token, p)
  | .peekNext => (p.look? (p.position + 1)).map fun t => (.token t.token, p)
  | .line => (p.look? p.position).map fun t => (.number t.line, p)
  | .advance => (p.look? p.position).map fun t => (.located t, p.behind t)
  | .eat expected => (p.look? p.position).map fun t =>
      if t.token == expected then (.flag true, p.behind t) else (.flag false, p)
  | .remaining => p.last?.map fun last => (.number (last - p.position), p)
  | .atEnd => (p.look? p.position).map fun t => (.flag t.token.isEnd, p)

/-- Answers requests, one after another. -/
def performAll? (p : Tape) : List Request → Option (List Answer × Tape)
  | [] => some ([], p)
  | request :: requests =>
    (p.perform? request).bind fun (answer, p) =>
      (p.performAll? requests).map fun (answers, p) => (answer :: answers, p)

/-- The cursor stands at the index, in a list that is closed. -/
structure Shows (p : Tape) (c : Cursor) : Prop where
  drop_eq : p.tokens.drop p.position = c.tokens
  closed : c.Closed

variable {p : Tape} {c : Cursor}

theorem shows_ofList (ts : List Located) : (ofList ts).Shows (Cursor.ofList ts) :=
  ⟨(tokens_ofList_eq_withEnd ts).symm, closed_ofList ts⟩

theorem Shows.length_eq (h : p.Shows c) : p.tokens.length = p.position + c.remaining + 1 := by
  have hlength := congrArg List.length h.drop_eq
  rw [List.length_drop, Cursor.tokens, List.length_cons] at hlength
  rw [remaining]
  omega

theorem Shows.last?_eq (h : p.Shows c) : p.last? = some (p.position + c.remaining) := by
  rw [last?, h.length_eq]

theorem Shows.getElem?_eq (h : p.Shows c) (i : Nat) : p.tokens[p.position + i]? = c.tokens[i]? := by
  rw [← h.drop_eq, List.getElem?_drop]

theorem Shows.look?_position (h : p.Shows c) : p.look? p.position = some c.here := by
  rw [look?, h.last?_eq, Option.bind_some, Nat.min_eq_left (Nat.le_add_right _ _)]
  exact h.getElem?_eq 0

/-- Behind the last token there is nothing to look at but that token. -/
theorem Shows.look?_next (h : p.Shows c) :
    p.look? (p.position + 1) = some (c.later.headD c.here) := by
  rw [look?, h.last?_eq, Option.bind_some]
  obtain ⟨here, later⟩ := c
  cases later with
  | nil =>
    rw [Nat.min_eq_right (by simp [remaining])]
    exact h.getElem?_eq 0
  | cons t later =>
    rw [Nat.min_eq_left (by simp [remaining])]
    exact h.getElem?_eq 1

theorem Shows.behind (h : p.Shows c) : (p.behind c.here).Shows c.advance.2 := by
  cases hend : c.atEnd with
  | true =>
    rw [Tape.behind, if_pos (show c.here.token.isEnd = true from hend), advance_of_atEnd hend]
    exact h
  | false =>
    have hmoves := moves_advance h.closed hend
    rw [Tape.behind, if_neg (show ¬ c.here.token.isEnd = true by simpa [atEnd] using hend)]
    refine ⟨?_, hmoves.closed h.closed⟩
    show p.tokens.drop (p.position + 1) = _
    rw [← List.drop_drop, h.drop_eq, hmoves]
    rfl

/-- One request is answered as by the cursor, and no token is looked at that is not there. -/
theorem Shows.perform? (h : p.Shows c) (request : Request) :
    ∃ p', p.perform? request = some ((c.perform request).1, p') ∧
      p'.Shows (c.perform request).2 := by
  cases request with
  | current | line | atEnd =>
    refine ⟨p, ?_, h⟩
    rw [Tape.perform?, h.look?_position]
    rfl
  | peekNext =>
    refine ⟨p, ?_, h⟩
    rw [Tape.perform?, h.look?_next]
    rfl
  | advance =>
    refine ⟨p.behind c.here, ?_, h.behind⟩
    rw [Tape.perform?, h.look?_position, Cursor.perform, advance_fst]
    rfl
  | eat expected =>
    rw [Tape.perform?, h.look?_position, Cursor.perform, Option.map_some, token_here]
    by_cases heat : (c.current == expected) = true
    · rw [if_pos heat, eat_of_beq heat]
      exact ⟨_, rfl, h.behind⟩
    · rw [if_neg heat, eat_of_not_beq heat]
      exact ⟨_, rfl, h⟩
  | remaining =>
    refine ⟨p, ?_, h⟩
    rw [Tape.perform?, h.last?_eq, Option.map_some, Nat.add_sub_cancel_left]
    rfl

theorem Shows.performAll? (h : p.Shows c) (requests : List Request) :
    ∃ p', p.performAll? requests = some ((c.performAll requests).1, p') ∧
      p'.Shows (c.performAll requests).2 := by
  induction requests generalizing p c with
  | nil => exact ⟨p, rfl, h⟩
  | cons request requests ih =>
    obtain ⟨p₁, hfirst, hshows⟩ := h.perform? request
    obtain ⟨p₂, hrest, hshows'⟩ := ih hshows
    refine ⟨p₂, ?_, hshows'⟩
    rw [Tape.performAll?, hfirst]
    show (p₁.performAll? requests).map _ = _
    rw [hrest]
    rfl

end Tape

/-! ### After any requests -/

namespace Cursor

/-- What holds of a cursor from the first token of `ts` on, after `taken` was taken. -/
structure Faithful (ts taken : List Located) (c : Cursor) : Prop where
  /-- What was taken is what stands before the first mark for the end, in order, and then that mark. -/
  taken_eq : taken = (beforeEnd ts).take taken.length ++
    List.replicate (taken.length - (beforeEnd ts).length) (firstEnd ts)
  /-- The current token, with its line, is the one that comes next in this. -/
  next_eq : ⟨c.current, c.line⟩ = (beforeEnd ts)[taken.length]?.getD (firstEnd ts)
  /-- A token that is expected is taken exactly if it is equal to the current one. -/
  eat_iff : ∀ expected, (c.perform (.eat expected)).1 = .flag true ↔ c.current.Same expected
  /-- A request that takes no token does not show in what follows. -/
  unchanged : ∀ request, request ≠ .advance →
    (∀ expected, request = .eat expected → (c.perform request).1 = .flag false) →
    ∀ later, (c.perform request).2.performAll later = c.performAll later
  /-- What was taken before the end, the current token and what is left behind it are all that there is. -/
  remaining_eq : c.remaining + 1 + (taken.filter fun t => !t.token.isEnd).length = (withEnd ts).length

theorem Took.faithful (h : Took ts taken c) : Faithful ts taken c where
  taken_eq := h.taken_eq
  next_eq := h.here_eq
  eat_iff expected := by
    rw [← eat_fst]
    exact ⟨fun hflag => Answer.flag.inj hflag, congrArg Answer.flag⟩
  unchanged request hadvance heat later := by
    rw [perform_of_not_taking hadvance]
    rintro expected rfl
    exact Answer.flag.inj (heat expected rfl)
  remaining_eq := h.remaining

/-- **A cursor loses and repeats nothing.**  After any requests, to a cursor on any list of tokens, what was
taken is the tokens before the first mark for the end, in order, and then that mark.  The list with an index
answers the same and looks at no token that is not there.  In a list that was scanned, nothing is left
exactly at the end. -/
theorem performAll_faithful (ts : List Located) (requests : List Request) :
    let c := ((ofList ts).performAll requests).2
    Faithful ts ((ofList ts).takesAll requests) c ∧
      (∃ p : Tape, (Tape.ofList ts).performAll? requests = some (((ofList ts).performAll requests).1, p) ∧
        p.position < p.tokens.length) ∧
      ∀ limit source, Token.scan limit source = .ok ts → (c.remaining = 0 ↔ c.atEnd = true) := by
  intro c
  have htook : Took ts ((ofList ts).takesAll requests) c := (took_ofList ts).performAll requests
  obtain ⟨p, hanswers, hshows⟩ := (Tape.shows_ofList ts).performAll? requests
  have hlength := hshows.length_eq
  exact ⟨htook.faithful, ⟨p, hanswers, by omega⟩, fun _ _ => htook.remaining_eq_zero_iff⟩

/-- The tokens of `a = b;` on two lines. -/
def assignment : List Located :=
  [⟨.name "a", 1⟩, ⟨.symbol .assign, 2⟩, ⟨.name "b", 2⟩, ⟨.symbol .semicolon, 2⟩, ⟨.endOfInput, 2⟩]

/-- Tokens are taken and looked at, one is not what was expected, and the end is taken twice. -/
def pastEnd : List Request :=
  [.advance, .eat (.symbol .semicolon), .peekNext, .eat (.symbol .assign), .advance, .advance, .advance,
    .eat .endOfInput]

theorem performAll_faithful_assignment :
    Token.scan 21 "a\n= b;" = .ok assignment ∧
      (ofList assignment).takesAll pastEnd = assignment ++ [⟨.endOfInput, 2⟩] ∧
      ((ofList assignment).performAll pastEnd).2.line = 2 ∧
      ((ofList assignment).performAll pastEnd).2.atEnd = true ∧
      ((ofList assignment).performAll pastEnd).2.remaining = 0 ∧
      ∀ later, ((((ofList assignment).performAll pastEnd).2.perform (.eat (.name "a"))).2.performAll later) =
        ((ofList assignment).performAll pastEnd).2.performAll later := by
  have hscan : Token.scan 21 "a\n= b;" = .ok assignment := by with_unfolding_all rfl
  have htakes : (ofList assignment).takesAll pastEnd = assignment ++ [⟨.endOfInput, 2⟩] := by
    with_unfolding_all rfl
  obtain ⟨hfaithful, -, hend⟩ := performAll_faithful assignment pastEnd
  have hremaining := hfaithful.remaining_eq
  rw [htakes] at hremaining
  have hzero : ((ofList assignment).performAll pastEnd).2.remaining = 0 := by
    simpa [assignment, withEnd, Token.isEnd] using hremaining
  have hfails : (((ofList assignment).performAll pastEnd).2.perform (.eat (.name "a"))).1 = .flag false := by
    with_unfolding_all rfl
  refine ⟨hscan, htakes, by with_unfolding_all rfl, (hend 21 _ hscan).1 hzero, hzero, ?_⟩
  exact hfaithful.unchanged _ (by rintro ⟨⟩) fun _ _ => hfails

end Cursor

end TableScript
