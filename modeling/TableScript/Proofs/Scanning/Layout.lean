import TableScript.Proofs.Program.Lines
import TableScript.Proofs.Scanning.Tokens

/-!
# Texts put together

How the segments of a text come about when the text is put together from pieces.  A segment is taken
off as it stands if what follows cannot go on with it (`next_append_of_stops`), and what follows a
segment in a text never can (`stops_of_next`).  So a text that was cut up completely is cut up in the
same way in front of another one, if its last segment stops there; a last run of blanks may grow, which
changes no token (`scanFrom_append`).

Layout is blanks, line breaks and closed comments.  It may be put between any two segments, since it
stops every segment in front of it but an open string, and gives no token: it only raises the lines
behind it (`scan_insert`).
-/

namespace TableScript

open Pattern

/-! ### Where a segment stops -/

namespace Segment

variable {cs rest x : List Char} {seg : Segment} {c : Char}

/-- Whether a segment takes in one more character.  A string does so until it is closed. -/
def goesOn (seg : Segment) (c : Char) : Bool :=
  match seg.kind with
  | .number => isNumberChar c
  | .word => isWordChar c
  | .text => (unquote? seg.chars).isNone && c != '\n'
  | .symbol .assign => c == '=' || c == '&'
  | .symbol .greater | .symbol .less => c == '='
  | .symbol _ | .comment | .newline => false
  | .blank => isBlank c

/-- A segment ends before a text, whose first character is no part of it. -/
def Stops (seg : Segment) (x : List Char) : Prop := ∀ c ∈ x.head?, seg.goesOn c = false

theorem Stops.append (h : seg.Stops rest) (hrest : rest ≠ []) (x : List Char) :
    seg.Stops (rest ++ x) := by
  obtain ⟨c, cs, rfl⟩ := List.exists_cons_of_ne_nil hrest
  exact h

theorem takeWhile_append_of_head {p : Char → Bool} (hcs : ∀ c ∈ cs, p c = true)
    (hx : ∀ c ∈ x.head?, p c = false) :
    (cs ++ x).takeWhile p = cs ∧ (cs ++ x).dropWhile p = x := by
  rw [List.takeWhile_append_of_pos hcs, List.dropWhile_append_of_pos hcs]
  cases x with
  | nil => exact ⟨List.append_nil cs, rfl⟩
  | cons c x =>
    have hc : ¬ p c = true := by simp [hx c rfl]
    rw [List.takeWhile_cons_of_neg hc, List.dropWhile_cons_of_neg hc, List.append_nil]
    exact ⟨rfl, rfl⟩

theorem head_dropWhile {p : Char → Bool} : ∀ c ∈ (cs.dropWhile p).head?, p c = false := by
  intro c hc
  have hhead := List.head?_dropWhile_not p cs
  rw [Option.mem_def.1 hc] at hhead
  simpa using hhead

/-- A run of characters of a class. -/
theorem run_append_of_head {kind : SegmentKind} {p : Char → Bool}
    (hx : ∀ c ∈ x.head?, p c = false) :
    run kind p c (cs.takeWhile p ++ x) = ((run kind p c cs).1, x) := by
  obtain ⟨htake, hdrop⟩ := takeWhile_append_of_head (fun c => List.mem_takeWhile_imp) hx
  rw [run, htake, hdrop]
  rfl

/-! ### Strings and symbols -/

/-- A string ends at its closing quote. -/
theorem next_quoted {ts : List Char} (hts : ∀ x ∈ ts, isTextChar x = true) (rest : List Char) :
    next ('\"' :: (ts ++ '\"' :: rest)) = some (⟨.text, '\"' :: (ts ++ ['\"'])⟩, rest) := by
  obtain ⟨htake, hdrop⟩ := takeWhile_append_of_head (x := '\"' :: rest) hts (by
    rintro _ ⟨⟩
    rfl)
  show some (string (ts ++ '\"' :: rest)) = _
  unfold string
  rw [hdrop, htake, List.cons_append]
  rfl

theorem unquote?_quoted (ts : List Char) : unquote? ('\"' :: (ts ++ ['\"'])) = some ts := by
  rw [unquote?, if_pos (by simp), List.dropLast_concat]

/-- A string that is not closed. -/
theorem unquote?_open {ts : List Char} (hts : ∀ x ∈ ts, isTextChar x = true) :
    unquote? ('\"' :: ts) = none := by
  refine if_neg fun hlast => ?_
  exact absurd (hts _ (List.mem_of_getLast? hlast)) (by decide)

/-- A closed comment ends at its second hash sign. -/
theorem next_comment {ts : List Char} (hts : ∀ x ∈ ts, isCommentChar x = true)
    (rest : List Char) :
    next ('#' :: (ts ++ '#' :: rest)) = some (⟨.comment, '#' :: (ts ++ ['#'])⟩, rest) := by
  obtain ⟨htake, hdrop⟩ := takeWhile_append_of_head (x := '#' :: rest) hts (by
    rintro _ ⟨⟩
    rfl)
  show comment? (ts ++ '#' :: rest) = _
  unfold comment?
  rw [hdrop, htake, List.cons_append]
  rfl

theorem next_string_of_stops (hx : (string cs).1.Stops x) :
    next ((string cs).1.chars ++ x) = some ((string cs).1, x) := by
  have htext : ∀ c ∈ cs.takeWhile isTextChar, isTextChar c = true := fun c => List.mem_takeWhile_imp
  unfold string at hx ⊢
  split at hx
  · simpa using next_quoted htext x
  · -- an open string goes on up to the end of its line
    have hnewline : ∀ c ∈ x.head?, c = '\n' := by
      intro c hc
      simpa [goesOn, unquote?_open htext] using hx c hc
    obtain ⟨htake, hdrop⟩ := takeWhile_append_of_head (p := isTextChar) htext fun c hc => by
      rw [hnewline c hc]
      rfl
    show some (string (cs.takeWhile isTextChar ++ x)) = _
    unfold string
    rw [htake, hdrop]
    split
    · cases hnewline _ rfl
    · rfl

theorem next_comment_of_stops (h : comment? cs = some (seg, rest)) (x : List Char) :
    next (seg.chars ++ x) = some (seg, x) := by
  have hall : ∀ c ∈ cs.takeWhile isCommentChar, isCommentChar c = true :=
    fun c => List.mem_takeWhile_imp
  unfold comment? at h
  split at h
  · cases h
    simpa using next_comment hall x
  · cases h

theorem symbol?_of_stops {mark : Symbol} {taken : List Char}
    (h : symbol? cs = some (mark, taken, rest)) (hx : Stops ⟨.symbol mark, taken⟩ x) :
    symbol? (taken ++ x) = some (mark, taken, x) := by
  have hequal (hx : ∀ c ∈ x.head?, c ≠ '=') : ∀ t, x = '=' :: t → False := by
    rintro t rfl
    exact hx '=' rfl rfl
  unfold symbol? at h
  split at h
  all_goals
    cases h
    try rfl
  · rw [List.singleton_append, symbol?]
    exact hequal fun c hc => by simpa [goesOn] using hx c hc
  · rw [List.singleton_append, symbol?]
    exact hequal fun c hc => by simpa [goesOn] using hx c hc
  · have hassign : ∀ c ∈ x.head?, c ≠ '=' ∧ c ≠ '&' := fun c hc => by
      simpa [goesOn] using hx c hc
    rw [List.singleton_append, symbol?]
    · exact hequal fun c hc => (hassign c hc).1
    · rintro t rfl
      exact (hassign '&' rfl).2 rfl

/-- Nothing that follows a string in a text is a part of it. -/
theorem stops_string (cs : List Char) : (string cs).1.Stops (string cs).2 := by
  have hdrop : ∀ c ∈ (cs.dropWhile isTextChar).head?, isTextChar c = false := head_dropWhile
  unfold string
  split
  · intro c _
    have hclosed := unquote?_quoted (cs.takeWhile isTextChar)
    simp [goesOn, hclosed]
  · next hopen =>
    -- behind an open string there is no quote, so its line is at its end
    intro c hc
    have hquote : c ≠ '\"' := by
      rintro rfl
      obtain ⟨t, ht⟩ := List.head?_eq_some_iff.1 hc
      exact hopen t ht
    have hnewline : c = '\n' := by simpa [isTextChar, hquote] using hdrop c hc
    simp [goesOn, hnewline]

theorem stops_symbol {mark : Symbol} {taken : List Char}
    (h : symbol? cs = some (mark, taken, rest)) : Stops ⟨.symbol mark, taken⟩ rest := by
  unfold symbol? at h
  split at h
  all_goals
    cases h
    try exact fun _ _ => rfl
  all_goals
    intro c hc
    obtain ⟨t, rfl⟩ := List.head?_eq_some_iff.1 hc
    simp_all [goesOn]

/-! ### One segment -/

/-- A segment is taken off again before any text that it stops at. -/
theorem next_append_of_stops (h : next cs = some (seg, rest)) (hx : seg.Stops x) :
    next (seg.chars ++ x) = some (seg, x) := by
  cases cs with
  | nil => cases h
  | cons c cs =>
    rw [next_cons] at h
    rcases hfamily : Family.of c with _ | _ | _ | _ | _ | _ | _
    all_goals simp only [hfamily] at h
    · -- numbers, words and blanks
      cases h
      rw [List.cons_append, next_cons, hfamily]
      exact congrArg some (run_append_of_head hx)
    · cases h
      rw [List.cons_append, next_cons, hfamily]
      exact congrArg some (run_append_of_head hx)
    · cases h
      rw [List.cons_append, next_cons, hfamily]
      exact congrArg some (run_append_of_head hx)
    · cases h
      rfl
    · have hseg : string cs = (seg, rest) := Option.some.inj h
      obtain rfl : (string cs).1 = seg := congrArg Prod.fst hseg
      exact next_string_of_stops hx
    · exact next_comment_of_stops h x
    · obtain ⟨⟨mark, taken, rest'⟩, hfound, he⟩ := Option.map_eq_some_iff.1 h
      cases he
      obtain ⟨happend, hne⟩ := symbol?_append hfound
      obtain ⟨d, us, rfl⟩ := List.exists_cons_of_ne_nil hne
      obtain ⟨rfl, -⟩ := List.cons.inj happend
      have hsymbol := symbol?_of_stops hfound hx
      rw [List.cons_append, next_cons, hfamily]
      rw [List.cons_append] at hsymbol
      simp only [hsymbol, Option.map_some]

/-- Nothing that follows a segment in a text is a part of it. -/
theorem stops_of_next (h : next cs = some (seg, rest)) : seg.Stops rest := by
  cases cs with
  | nil => cases h
  | cons c cs =>
    rw [next_cons] at h
    rcases hfamily : Family.of c with _ | _ | _ | _ | _ | _ | _
    all_goals simp only [hfamily] at h
    · cases h
      exact head_dropWhile
    · cases h
      exact head_dropWhile
    · cases h
      exact head_dropWhile
    · cases h
      exact fun _ _ => rfl
    · have hstring := stops_string cs
      rwa [Option.some.inj h] at hstring
    · unfold comment? at h
      split at h
      · cases h
        exact fun _ _ => rfl
      · cases h
    · obtain ⟨⟨mark, taken, rest'⟩, hfound, he⟩ := Option.map_eq_some_iff.1 h
      cases he
      exact stops_symbol hfound

/-- Behind a segment that is not the last one, the text may go on in any way. -/
theorem next_append_right (h : next cs = some (seg, rest)) (hrest : rest ≠ []) (x : List Char) :
    next (cs ++ x) = some (seg, rest ++ x) := by
  obtain ⟨rfl, -⟩ := next_append h
  rw [List.append_assoc]
  exact next_append_of_stops h ((stops_of_next h).append hrest x)

/-- Line breaks are counted by the segments that they are. -/
theorem lineAfter_eq_add (h : next cs = some (seg, rest)) (line : Nat) :
    seg.lineAfter line = line + seg.chars.count '\n' := by
  have hone : seg.lineAfter 1 = 1 + (0 + seg.chars.count '\n') :=
    lineAfter_eq (longest_of_next h).2 0
  have hline : seg.lineAfter line + 1 = line + seg.lineAfter 1 := by
    unfold lineAfter
    split
    · omega
    · rfl
  omega

/-- A segment of blanks holds nothing else. -/
theorem isBlank_of_next (h : next cs = some (seg, rest)) (hkind : seg.kind = .blank) :
    ∀ c ∈ seg.chars, isBlank c = true := by
  have hpattern : seg.pattern = .blank := by rw [pattern, hkind]
  have hmem := (longest_of_next h).2.mem
  rw [hpattern] at hmem
  obtain ⟨c, us, hchars, hc, hus⟩ := mem_language_iff.1 hmem
  rw [hchars]
  exact List.forall_mem_cons.2 ⟨hc, hus⟩

/-! ### All segments -/

theorem split_of_next (h : next cs = some (seg, rest)) :
    split cs = (seg :: (split rest).1, (split rest).2) := by
  rw [split]
  split
  · next hnone => cases h.symm.trans hnone
  · next hsome =>
    cases h.symm.trans hsome
    rfl

theorem split_nil : split [] = ([], []) := by
  rw [split]
  rfl

/-- A text without segments is all tail. -/
theorem split_of_none (h : next cs = none) : split cs = ([], cs) := by
  rw [split]
  split
  · rfl
  · next hsome => cases h.symm.trans hsome

/-- A text is cut between two segments: up to the cut its segments are those of the first part, which
leave nothing of it over.  An open string is not the last of them; it is no token, and what is put
behind it on its line could close it.  That is so if the first part can be scanned
(`Token.boundary_of_scan`). -/
structure Boundary (u v : List Char) : Prop where
  whole : (split u).2 = []
  before : (split u).1 <+: (split (u ++ v)).1
  closed : ∀ seg ∈ (split u).1.getLast?, seg.kind = .text → (unquote? seg.chars).isSome = true

/-- Induction over the segments of a text that is cut up completely, from the last one back. -/
theorem split_induction {P : List Char → Prop} (hnil : P [])
    (hlast : ∀ {cs seg}, next cs = some (seg, []) → (split cs).1.getLast? = some seg → P cs)
    (hmore : ∀ {cs seg rest}, next cs = some (seg, rest) → rest ≠ [] → (split rest).2 = [] →
      (split cs).1.getLast? = (split rest).1.getLast? → P rest → P cs)
    (hwhole : (split cs).2 = []) : P cs := by
  fun_induction split cs with
  | case1 cs hnext =>
    obtain rfl : cs = [] := hwhole
    exact hnil
  | case2 cs seg rest hnext segs tail hrest ih =>
    obtain rfl : tail = [] := hwhole
    rw [hrest] at ih
    have hsplit := split_of_next hnext
    rw [hrest] at hsplit
    rcases hsecond : next rest with - | ⟨seg', rest'⟩
    · obtain ⟨rfl, rfl⟩ := Prod.mk.inj ((split_of_none hsecond).symm.trans hrest)
      exact hlast hnext (by rw [hsplit]; rfl)
    · obtain ⟨rfl, -⟩ := Prod.mk.inj ((split_of_next hsecond).symm.trans hrest)
      refine hmore hnext ?_ (by rw [hrest]) ?_ (ih rfl)
      · rintro rfl
        cases hsecond
      · rw [hsplit, hrest, List.getLast?_cons_cons]

/-- The last segment before a cut stops there. -/
theorem Boundary.stops {u v : List Char} (h : Boundary u v) :
    ∀ seg ∈ (split u).1.getLast?, seg.Stops v := by
  obtain ⟨hwhole, hbefore, -⟩ := h
  revert hbefore
  -- the first segment of the whole text is that of its first part, and the same text is left
  have hfirst {u seg rest} (hnext : next u = some (seg, rest))
      (hbefore : (split u).1 <+: (split (u ++ v)).1) :
      next (u ++ v) = some (seg, rest ++ v) ∧ (split rest).1 <+: (split (rest ++ v)).1 := by
    rw [split_of_next hnext] at hbefore
    rcases hfirst : next (u ++ v) with - | ⟨seg', rest'⟩
    · rw [split_of_none hfirst] at hbefore
      cases List.prefix_nil.1 hbefore
    · rw [split_of_next hfirst] at hbefore
      obtain ⟨rfl, hsegs⟩ := List.cons_prefix_cons.1 hbefore
      have happend := (next_append hfirst).1
      rw [← (next_append hnext).1, List.append_assoc] at happend
      obtain rfl := List.append_cancel_left happend
      exact ⟨rfl, hsegs⟩
  refine split_induction (P := fun u => (split u).1 <+: (split (u ++ v)).1 →
    ∀ seg ∈ (split u).1.getLast?, seg.Stops v) ?_ ?_ ?_ hwhole
  · rw [split_nil]
    exact fun _ _ h => nomatch h
  · intro u seg hnext hlast hbefore
    rw [hlast]
    rintro _ ⟨⟩
    exact stops_of_next (hfirst hnext hbefore).1
  · intro u seg rest hnext _ _ hlast ih hbefore
    rw [hlast]
    exact ih (hfirst hnext hbefore).2

end Segment

/-! ### Scanning from a line on -/

namespace Token

open Segment

variable {limit line : Nat} {cs rest x : List Char} {seg : Segment} {c : Char}

/-- The tokens of a text that starts on `line`. -/
def scanFrom (limit line : Nat) (cs : List Char) : Except Error (List Located) :=
  ofSegments limit line (split cs).1 (split cs).2

theorem scan_eq_scanFrom (limit : Nat) (source : String) :
    scan limit source = scanFrom limit 1 source.toList := rfl

theorem scanFrom_nil (limit line : Nat) : scanFrom limit line [] = .ok [⟨.endOfInput, line⟩] := by
  rw [scanFrom, split_nil]
  rfl

theorem scanFrom_of_token {t : Option Token} (h : next cs = some (seg, rest))
    (ht : seg.token? limit = .ok t) :
    scanFrom limit line cs = (scanFrom limit (seg.lineAfter line) rest).map
      ((t.map fun t => ⟨t, line⟩).toList ++ ·) := by
  rw [scanFrom, split_of_next h]
  exact ofSegments_of_sound ht

theorem scanFrom_of_fault {e : LexicalError} (h : next cs = some (seg, rest))
    (ht : seg.token? limit = .error e) :
    scanFrom limit line cs = .error (.lexical line e) := by
  rw [scanFrom, split_of_next h, ofSegments, ht]

/-- A segment that gives no token only leads on to another line. -/
theorem scanFrom_of_skipped (h : next cs = some (seg, rest)) (ht : seg.token? limit = .ok none) :
    scanFrom limit line cs = scanFrom limit (seg.lineAfter line) rest := by
  rw [scanFrom_of_token h ht]
  rcases scanFrom limit (seg.lineAfter line) rest with e | ts
  · rfl
  · rfl

/-! ### Layout -/

theorem scanFrom_dropWhile (limit line : Nat) (cs : List Char) :
    scanFrom limit line cs = scanFrom limit line (cs.dropWhile isBlank) := by
  cases cs with
  | nil => rfl
  | cons c cs =>
    by_cases hc : isBlank c = true
    · have hnext : next (c :: cs) = some (run .blank isBlank c cs) := by
        rw [next_cons, family_of_isBlank hc]
      rw [List.dropWhile_cons_of_pos hc]
      exact scanFrom_of_skipped hnext rfl
    · rw [List.dropWhile_cons_of_neg hc]

/-- Blanks, line breaks and closed comments, in any order. -/
inductive Layout : List Char → Prop
  | nil : Layout []
  | blank {c w} : isBlank c = true → Layout w → Layout (c :: w)
  | newline {w} : Layout w → Layout ('\n' :: w)
  | comment {ts w} : (∀ c ∈ ts, isCommentChar c = true) → Layout w →
      Layout ('#' :: (ts ++ '#' :: w))

/-- Layout in front of a text gives no token, and its line breaks raise the lines of the text. -/
theorem scanFrom_layout {w : List Char} (hw : Layout w) (limit line : Nat) (cs : List Char) :
    scanFrom limit line (w ++ cs) = scanFrom limit (line + w.count '\n') cs := by
  induction hw generalizing line with
  | nil => rfl
  | @blank c w hc _ ih =>
    have hne : c ≠ '\n' := by
      rintro rfl
      cases hc
    rw [List.count_cons_of_ne hne, ← ih, List.cons_append, scanFrom_dropWhile,
      List.dropWhile_cons_of_pos hc, ← scanFrom_dropWhile]
  | @newline w _ ih =>
    have hnext : next ('\n' :: (w ++ cs)) = some (⟨.newline, ['\n']⟩, w ++ cs) := rfl
    rw [List.count_cons_self, List.cons_append, scanFrom_of_skipped hnext rfl, ih]
    exact congrArg (scanFrom limit · cs) (by simp only [lineAfter]; omega)
  | @comment ts w hts _ ih =>
    have hnone : ts.count '\n' = 0 := by
      rw [List.count_eq_zero]
      exact fun hmem => absurd (hts _ hmem) (by decide)
    have happend : '#' :: (ts ++ '#' :: w) ++ cs = '#' :: (ts ++ '#' :: (w ++ cs)) := by simp
    rw [happend, scanFrom_of_skipped (next_comment hts _) rfl, lineAfter, ih]
    simp [hnone]

/-! ### Raising lines -/

/-- What scanning yields, with the lines of the tokens from the `n`th on raised by `k`, or the line of
the error. -/
def raiseFrom (n k : Nat) : Except Error (List Located) → Except Error (List Located)
  | .ok ts => .ok (ts.take n ++ (ts.drop n).map (Located.mapLine (· + k)))
  | .error e => .error (e.mapLine (· + k))

theorem ofSegments_add (limit line k : Nat) (segs : List Segment) (tail : List Char) :
    ofSegments limit (line + k) segs tail = raiseFrom 0 k (ofSegments limit line segs tail) := by
  induction segs generalizing line with
  | nil =>
    cases tail with
    | nil => rfl
    | cons c tail => rfl
  | cons seg segs ih =>
    have hline : seg.lineAfter (line + k) = seg.lineAfter line + k := by
      unfold lineAfter
      split
      · omega
      · rfl
    rcases htoken : seg.token? limit with e | t
    · rw [ofSegments, htoken, ofSegments, htoken]
      rfl
    · rw [ofSegments_of_sound htoken, ofSegments_of_sound htoken, hline, ih]
      rcases ofSegments limit (seg.lineAfter line) segs tail with e | ts
      · rfl
      · cases t with
        | none => rfl
        | some t => rfl

/-- A text that starts `k` lines further down has all its lines raised. -/
theorem scanFrom_add (limit line k : Nat) (cs : List Char) :
    scanFrom limit (line + k) cs = raiseFrom 0 k (scanFrom limit line cs) :=
  ofSegments_add limit line k _ _

/-! ### Texts behind one another -/

/-- What scanning two texts behind one another yields, given what each of them yields: the end of the
first is not in it, and an error of the first is the error of both. -/
def joined : Except Error (List Located) → Except Error (List Located) →
    Except Error (List Located)
  | .error e, _ => .error e
  | .ok ts, rest => rest.map (ts.dropLast ++ ·)

theorem scanFrom_ne_nil {ts : List Located} (h : scanFrom limit line cs = .ok ts) : ts ≠ [] := by
  rintro rfl
  rw [scanFrom] at h
  generalize (split cs).1 = segs at h
  induction segs generalizing line with
  | nil =>
    generalize (split cs).2 = tail at h
    cases tail with
    | nil => cases h
    | cons c tail => cases h
  | cons seg segs ih =>
    rcases htoken : seg.token? limit with e | t
    · rw [ofSegments, htoken] at h
      cases h
    · rw [ofSegments_of_sound htoken] at h
      rcases hrest : ofSegments limit (seg.lineAfter line) segs (split cs).2 with e | ts
      · rw [hrest] at h
        cases h
      · rw [hrest] at h
        obtain ⟨-, rfl⟩ := List.append_eq_nil_iff.1 (Except.ok.inj h)
        exact ih hrest

theorem joined_map (ts : List Located) {first : Except Error (List Located)}
    (hfirst : ∀ ts, first = .ok ts → ts ≠ []) (second : Except Error (List Located)) :
    joined (first.map (ts ++ ·)) second = (joined first second).map (ts ++ ·) := by
  rcases first with e | us
  · rfl
  · rcases second with e | vs
    · rfl
    · simp [joined, Except.map, List.dropLast_append_of_ne_nil (hfirst us rfl)]

/-- If the first segment of a text is also taken off when another text follows, then it is enough to
look at what is left. -/
theorem scanFrom_append_of_next (h : next cs = some (seg, rest))
    (hx : next (cs ++ x) = some (seg, rest ++ x))
    (hrest : ∀ line, scanFrom limit line (rest ++ x) =
      joined (scanFrom limit line rest) (scanFrom limit (line + rest.count '\n') x)) (line : Nat) :
    scanFrom limit line (cs ++ x) =
      joined (scanFrom limit line cs) (scanFrom limit (line + cs.count '\n') x) := by
  rcases htoken : seg.token? limit with e | t
  · rw [scanFrom_of_fault h htoken, scanFrom_of_fault hx htoken]
    rfl
  · rw [scanFrom_of_token h htoken, scanFrom_of_token hx htoken, hrest,
      joined_map _ fun _ => scanFrom_ne_nil, lineAfter_eq_add h, Nat.add_assoc,
      ← List.count_append, (next_append h).1]

/-- Joining with a text that has no tokens changes nothing. -/
theorem joined_end (line : Nat) (second : Except Error (List Located)) :
    joined (.ok [⟨.endOfInput, line⟩]) second = second := by
  rcases second with e | ts
  · rfl
  · rfl

theorem layout_of_blanks {w : List Char} (hw : ∀ c ∈ w, isBlank c = true) : Layout w := by
  induction w with
  | nil => exact .nil
  | cons c w ih =>
    obtain ⟨hc, hw⟩ := List.forall_mem_cons.1 hw
    exact .blank hc (ih hw)

/-- A text that is cut up completely keeps its tokens when another text follows, if its last segment
stops there or gives no token. -/
theorem scanFrom_append (hwhole : (split cs).2 = [])
    (hlast : ∀ seg ∈ (split cs).1.getLast?, seg.kind = .blank ∨ seg.Stops x) (limit line : Nat) :
    scanFrom limit line (cs ++ x) =
      joined (scanFrom limit line cs) (scanFrom limit (line + cs.count '\n') x) := by
  have hempty (line : Nat) : scanFrom limit line ([] ++ x) =
      joined (scanFrom limit line []) (scanFrom limit (line + [].count '\n') x) := by
    rw [scanFrom_nil, joined_end]
    rfl
  revert line hlast
  refine split_induction (P := fun cs => (∀ seg ∈ (split cs).1.getLast?, seg.kind = .blank ∨
    seg.Stops x) → ∀ line, scanFrom limit line (cs ++ x) =
      joined (scanFrom limit line cs) (scanFrom limit (line + cs.count '\n') x)) ?_ ?_ ?_ hwhole
  · exact fun _ => hempty
  · intro cs seg hnext hseg hlast line
    rw [hseg] at hlast
    rcases hlast seg rfl with hblank | hstops
    · -- blanks may run on into the text behind them, but they are layout
      have hlayout : Layout cs := by
        rw [← (next_append hnext).1, List.append_nil]
        exact layout_of_blanks (isBlank_of_next hnext hblank)
      have hcs := scanFrom_layout hlayout limit line []
      rw [List.append_nil, scanFrom_nil] at hcs
      rw [scanFrom_layout hlayout, hcs, joined_end]
    · have happend := (next_append hnext).1
      rw [List.append_nil] at happend
      refine scanFrom_append_of_next hnext ?_ hempty line
      rw [← happend]
      exact next_append_of_stops hnext hstops
  · intro cs seg rest hnext hne _ hseg ih hlast line
    rw [hseg] at hlast
    exact scanFrom_append_of_next hnext (next_append_right hnext hne x) (ih hlast) line

/-- Layout starts with a blank, a line break or a hash sign. -/
theorem Layout.head {w : List Char} (hw : Layout w) :
    ∀ c ∈ w.head?, isBlank c = true ∨ c = '\n' ∨ c = '#' := by
  cases hw with
  | nil => exact fun _ h => nomatch h
  | blank hc =>
    rintro _ ⟨⟩
    exact .inl hc
  | newline =>
    rintro _ ⟨⟩
    exact .inr (.inl rfl)
  | comment =>
    rintro _ ⟨⟩
    exact .inr (.inr rfl)

/-- Layout stops every segment but blanks and an open string. -/
theorem goesOn_layout (hclosed : seg.kind = .text → (unquote? seg.chars).isSome = true)
    (hc : isBlank c = true ∨ c = '\n' ∨ c = '#') : seg.kind = .blank ∨ seg.goesOn c = false := by
  have hclass : isNumberChar c = false ∧ isWordChar c = false ∧ c ≠ '=' ∧ c ≠ '&' := by
    simp only [isBlank, Bool.or_eq_true, beq_iff_eq] at hc
    rcases hc with (((rfl | rfl) | rfl) | rfl) | rfl | rfl <;> decide
  obtain ⟨hnumber, hword, hequal, hand⟩ := hclass
  obtain ⟨kind, chars⟩ := seg
  cases kind with
  | blank => exact .inl rfl
  | number => exact .inr hnumber
  | word => exact .inr hword
  | text =>
    refine .inr ?_
    have hsome : (unquote? chars).isNone = false := by simpa using hclosed rfl
    simp [goesOn, hsome]
  | comment | newline => exact .inr rfl
  | symbol m => cases m <;> simp [goesOn, hequal, hand]

/-- A text that can be scanned by itself ends at a boundary, if its segments are also those of the text
that it starts. -/
theorem boundary_of_scan {u v : String} {front : List Located} (h : scan limit u = .ok front)
    (hbefore : (split u.toList).1 <+: (split (u.toList ++ v.toList)).1) :
    Boundary u.toList v.toList := by
  obtain ⟨hwhole, hsound, -⟩ := scan_eq_ok_iff.1 h
  refine ⟨hwhole, hbefore, fun seg hseg hkind => ?_⟩
  have hmem := List.mem_of_getLast? hseg
  have hpattern : seg.pattern = .text := by rw [pattern, hkind]
  have hquoted := (hsound seg.piece (List.mem_map_of_mem hmem)).wellFormed.text hpattern
  have hchars := (wins_split u.toList seg hmem).mem
  rw [hpattern] at hchars
  rcases unquote?_cases hchars with ⟨-, hvalue⟩ | ⟨hnot, -⟩
  · rw [hvalue]
    rfl
  · exact absurd hquoted hnot

/-- What stands before a boundary keeps its tokens when layout is put there. -/
theorem scanFrom_append_layout {u v w : List Char} (h : Boundary u v) (hw : Layout w)
    (limit line : Nat) :
    scanFrom limit line (u ++ (w ++ v)) =
      joined (scanFrom limit line u) (scanFrom limit (line + u.count '\n' + w.count '\n') v) := by
  rw [← scanFrom_layout hw]
  refine scanFrom_append h.whole (fun seg hseg => ?_) limit line
  cases w with
  | nil => exact .inr (h.stops seg hseg)
  | cons c w =>
    rcases goesOn_layout (h.closed seg hseg) (hw.head c rfl) with hblank | hstops
    · exact .inl hblank
    · refine .inr ?_
      rintro _ ⟨⟩
      exact hstops

/-- Raising the lines of the second text raises what comes from it. -/
theorem joined_raiseFrom (ts : List Located) (k : Nat) (second : Except Error (List Located)) :
    joined (.ok ts) (raiseFrom 0 k second) =
      raiseFrom ts.dropLast.length k (joined (.ok ts) second) := by
  rcases second with e | us
  · rfl
  · simp [joined, raiseFrom, Except.map]

/-- Layout between two segments only raises the lines of the tokens behind it, or the line of the
error if there is one behind it. -/
theorem scan_insert {u w v : String} (h : Boundary u.toList v.toList) (hw : Layout w.toList)
    (limit : Nat) :
    match scan limit u with
    | .ok front => scan limit (u ++ w ++ v) =
        raiseFrom (front.length - 1) (w.toList.count '\n') (scan limit (u ++ v))
    | .error e => scan limit (u ++ w ++ v) = .error e ∧ scan limit (u ++ v) = .error e := by
  have hboth := scanFrom_append_layout h hw limit 1
  have hplain := scanFrom_append_layout h .nil limit 1
  rw [scanFrom_add] at hboth
  simp only [scan_eq_scanFrom, String.toList_append, List.append_assoc]
  rw [hboth]
  rw [List.nil_append, List.count_nil, Nat.add_zero] at hplain
  rw [hplain]
  rcases scanFrom limit 1 u.toList with e | front
  · exact ⟨rfl, rfl⟩
  · show joined _ _ = _
    rw [joined_raiseFrom, List.length_dropLast]

end Token

end TableScript
