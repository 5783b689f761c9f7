import TableScript.Proofs.Scanning.MaximalMunch

/-!
# What scanning yields

The pieces of a text say what its tokens are.  A piece is sound if it is a proper number, a closed
string or anything else, and not longer than the limit unless it is left out; each sound piece gives
the token that its pattern says, on the line that the line breaks before it say (`located`).  A piece
that is not sound has one fault (`Piece.Fault`), and a text that cannot be scanned has a first one
(`FirstFault`).

`scan_eq_iff` puts this together: scanning succeeds exactly on texts whose pieces are all sound and
leave nothing over, with the tokens of the pieces, and otherwise it fails with the first fault.  No
assumption is made about the text or the limit.
-/

namespace TableScript

open Pattern

/-! ### Tokens and faults of pieces -/

namespace Piece

/-- The number that digits with a fraction are. -/
def decimalValue (w : List Char) : Float :=
  Number.ofDecimal (w.takeWhile (· != '.')) ((w.dropWhile (· != '.')).drop 1)

/-- The token that a piece stands for; comments, line breaks and blanks are left out. -/
def token? (x : Piece) : Option Token :=
  match x.pattern with
  | .number => some (.number (decimalValue x.chars))
  | .truth b => some (.bool b)
  | .keyword w => some (.keyword w)
  | .name => some (.name (String.ofList x.chars))
  | .text => some (.text (String.ofList (x.chars.drop 1).dropLast))
  | .symbol m => some (.symbol m)
  | .comment | .newline | .blank => none

/-- Numbers have at most one point, with digits on both sides, and strings are closed. -/
structure WellFormed (x : Piece) : Prop where
  number : x.pattern = .number → x.chars ∈ decimal
  text : x.pattern = .text → x.chars ∈ quoted

/-- A piece that may stand in a script. -/
structure Sound (limit : Nat) (x : Piece) : Prop where
  wellFormed : x.WellFormed
  length_le : x.token?.isSome = true → x.chars.length ≤ limit

/-- What is wrong with a piece.  Its length matters only if nothing else is. -/
inductive Fault (limit : Nat) : Piece → LexicalError → Prop
  | malformed {w} : w ∉ decimal → Fault limit ⟨.number, w⟩ (.malformedNumber (String.ofList w))
  | unclosed {w} : w ∉ quoted → Fault limit ⟨.text, w⟩ .unclosedText
  | tooLong {x : Piece} : x.WellFormed → x.token?.isSome = true → limit < x.chars.length →
      Fault limit x (.tokenTooLong (String.ofList x.chars) limit)

variable {limit : Nat} {x : Piece} {e e' : LexicalError}

theorem Fault.not_sound (h : x.Fault limit e) : ¬ x.Sound limit := by
  intro hsound
  cases h with
  | malformed hw => exact hw (hsound.wellFormed.number rfl)
  | unclosed hw => exact hw (hsound.wellFormed.text rfl)
  | tooLong _ hsome hlong => exact absurd (hsound.length_le hsome) (by omega)

theorem Fault.unique (h : x.Fault limit e) (h' : x.Fault limit e') : e = e' := by
  cases h with
  | malformed hw =>
    cases h' with
    | malformed => rfl
    | tooLong hwell => exact absurd (hwell.number rfl) hw
  | unclosed hw =>
    cases h' with
    | unclosed => rfl
    | tooLong hwell => exact absurd (hwell.text rfl) hw
  | tooLong hwell =>
    cases h' with
    | malformed hw => exact absurd (hwell.number rfl) hw
    | unclosed hw => exact absurd (hwell.text rfl) hw
    | tooLong => rfl

end Piece

/-- The tokens of pieces that stand behind the text `before`. -/
def located (before : List Char) : List Piece → List Located
  | [] => []
  | x :: xs =>
    (x.token?.map fun t => ⟨t, 1 + before.count '\n'⟩).toList ++ located (before ++ x.chars) xs

/-- The error of the first piece with a fault, or of the tail if there is none. -/
inductive FirstFault (limit : Nat) : List Char → List Piece → List Char → Error → Prop
  | tail {before c cs} :
      FirstFault limit before [] (c :: cs) (.lexical (1 + before.count '\n') (.invalidCharacter c))
  | here {before x xs tail e} : x.Fault limit e →
      FirstFault limit before (x :: xs) tail (.lexical (1 + before.count '\n') e)
  | later {before x xs tail e} : x.Sound limit → FirstFault limit (before ++ x.chars) xs tail e →
      FirstFault limit before (x :: xs) tail e

variable {w cs tail : List Char} {c : Char} {p : Pattern} {pieces : List Piece}

theorem FirstFault.lexical {limit : Nat} {before : List Char} {e : Error}
    (h : FirstFault limit before pieces tail e) : ∃ line g, e = .lexical line g := by
  induction h with
  | tail => exact ⟨_, _, rfl⟩
  | here => exact ⟨_, _, rfl⟩
  | later _ _ ih => exact ih

theorem Cuts.wins (h : Cuts cs pieces tail) : ∀ x ∈ pieces, x.pattern.Wins x.chars := by
  induction h with
  | stop => simp
  | piece _ hwins _ ih => exact List.forall_mem_cons.2 ⟨hwins, ih⟩

theorem Cuts.append_eq (h : Cuts cs pieces tail) : pieces.flatMap Piece.chars ++ tail = cs := by
  induction h with
  | stop => rfl
  | piece _ _ _ ih => rw [List.flatMap_cons, List.append_assoc, ih]

/-! ### Numbers and strings -/

theorem mem_decimal : w ∈ decimal ↔
    w ∈ digitRun ∨ ∃ ds fs, ds ∈ digitRun ∧ fs ∈ digitRun ∧ w = ds ++ '.' :: fs := by
  rw [decimal, Language.mem_mul]
  constructor
  · rintro ⟨ds, hds, us, hus, rfl⟩
    rcases (Language.mem_add _ _ _).1 hus with rfl | hus
    · exact .inl (by simpa using hds)
    · obtain ⟨fs, rfl, hfs⟩ := mem_char_mul.1 hus
      exact .inr ⟨ds, fs, hds, hfs, rfl⟩
  · rintro (hw | ⟨ds, fs, hds, hfs, rfl⟩)
    · exact ⟨w, hw, [], (Language.mem_add _ _ _).2 (.inl rfl), List.append_nil w⟩
    · exact ⟨ds, hds, _, (Language.mem_add _ _ _).2 (.inr (mem_char_mul.2 ⟨fs, rfl, hfs⟩)), rfl⟩

/-- There is no point in a run of digits. -/
theorem ne_point_of_mem_digitRun (h : w ∈ digitRun) : ∀ x ∈ w, (x != '.') = true := by
  intro x hx
  have hdigit := Segment.mem_digitSet.1 ((mem_digitRun.1 h).2 x hx)
  rw [bne_iff_ne]
  rintro rfl
  exact absurd hdigit (by decide)

/-- A point splits a number where it stands first. -/
theorem split_point {ds fs : List Char} (hds : ds ∈ digitRun) :
    (ds ++ '.' :: fs).takeWhile (· != '.') = ds ∧
      (ds ++ '.' :: fs).dropWhile (· != '.') = '.' :: fs := by
  have hpoint := ne_point_of_mem_digitRun hds
  constructor
  · rw [List.takeWhile_append_of_pos hpoint, List.takeWhile_cons_of_neg (by decide),
      List.append_nil]
  · rw [List.dropWhile_append_of_pos hpoint, List.dropWhile_cons_of_neg (by decide)]

/-- What is no point in a number is a digit. -/
theorem mem_digitSet_of_ne_point (h : w ∈ language .number) {x : Char} (hx : x ∈ w)
    (hpoint : x ≠ '.') : x ∈ digitSet := by
  obtain ⟨c, cs, rfl, hc, hcs⟩ := mem_number.1 h
  rw [Segment.mem_digitSet]
  rcases List.mem_cons.1 hx with rfl | hx
  · exact hc
  · have hx := hcs x hx
    simpa [Segment.isNumberChar, hpoint] using hx

/-- A number has digits before its first point. -/
theorem takeWhile_mem_digitRun (h : w ∈ language .number) :
    w.takeWhile (· != '.') ∈ digitRun := by
  refine mem_digitRun.2 ⟨?_, fun x hx => ?_⟩
  · obtain ⟨c, cs, rfl, hc, -⟩ := mem_number.1 h
    have hne : (c != '.') = true := by
      rw [bne_iff_ne]
      rintro rfl
      exact absurd hc (by decide)
    rw [List.takeWhile_cons, if_pos hne]
    simp
  · have hmem : x ∈ w := (List.takeWhile_prefix _).subset hx
    exact mem_digitSet_of_ne_point h hmem (by simpa using List.mem_takeWhile_imp hx)

/-- A number with a point is a decimal if behind its first point there are characters, but no other
point. -/
theorem mem_decimal_iff_of_point {fs : List Char} (h : w ∈ language .number)
    (hdrop : w.dropWhile (· != '.') = '.' :: fs) : w ∈ decimal ↔ fs ≠ [] ∧ '.' ∉ fs := by
  have hsplit := List.takeWhile_append_dropWhile (p := fun x => x != '.') (l := w)
  rw [hdrop] at hsplit
  constructor
  · intro hdecimal
    rcases mem_decimal.1 hdecimal with hrun | ⟨ds, fs', hds, hfs, rfl⟩
    · have hmem : '.' ∈ w := by
        rw [← hsplit]
        simp
      exact absurd (ne_point_of_mem_digitRun hrun '.' hmem) (by decide)
    · rw [(split_point hds).2] at hdrop
      cases hdrop
      refine ⟨(mem_digitRun.1 hfs).1, fun hmem => ?_⟩
      exact absurd (ne_point_of_mem_digitRun hfs '.' hmem) (by decide)
  · rintro ⟨hne, hpoint⟩
    have hfs : fs ∈ digitRun := by
      refine mem_digitRun.2 ⟨hne, fun x hx => mem_digitSet_of_ne_point h ?_ ?_⟩
      · rw [← hsplit]
        simp [hx]
      · rintro rfl
        exact hpoint hx
    exact mem_decimal.2 (.inr ⟨_, fs, takeWhile_mem_digitRun h, hfs, hsplit.symm⟩)

/-- Reading a number finds out whether it is a proper one. -/
theorem ofLexeme?_cases (h : w ∈ language .number) :
    (w ∈ decimal ∧ Number.ofLexeme? w = some (Piece.decimalValue w)) ∨
      (w ∉ decimal ∧ Number.ofLexeme? w = none) := by
  rcases hdrop : w.dropWhile (· != '.') with - | ⟨d, fs⟩
  · have hwhole := takeWhile_mem_digitRun h
    have hsplit := List.takeWhile_append_dropWhile (p := fun x => x != '.') (l := w)
    rw [hdrop, List.append_nil] at hsplit
    rw [hsplit] at hwhole
    refine .inl ⟨mem_decimal.2 (.inl hwhole), ?_⟩
    simp only [Number.ofLexeme?, Piece.decimalValue, hdrop, List.drop_nil]
  · obtain rfl : d = '.' := by
      have hd := List.head?_dropWhile_not (· != '.') w
      simpa [hdrop] using hd
    have hvalue : Number.ofLexeme? w =
        if fs.isEmpty || fs.contains '.' then none else some (Piece.decimalValue w) := by
      simp only [Number.ofLexeme?, Piece.decimalValue, hdrop, List.drop_one, List.tail_cons]
    have hdecimal := mem_decimal_iff_of_point h hdrop
    by_cases hproper : fs ≠ [] ∧ '.' ∉ fs
    · refine .inl ⟨hdecimal.2 hproper, ?_⟩
      rw [hvalue, if_neg (by simpa using hproper)]
    · refine .inr ⟨fun hmem => hproper (hdecimal.1 hmem), ?_⟩
      rw [hvalue, if_pos (by simpa [← or_iff_not_imp_left] using hproper)]

/-- Taking the quotes off finds out whether a string is closed. -/
theorem unquote?_cases (h : w ∈ language .text) :
    (w ∈ quoted ∧ Segment.unquote? w = some (w.drop 1).dropLast) ∨
      (w ∉ quoted ∧ Segment.unquote? w = none) := by
  obtain ⟨c, cs, rfl, rfl, ts, hts, rfl | rfl⟩ := mem_text.1 h
  · have hlast : cs.getLast? ≠ some '\"' := by
      intro hlast
      exact absurd (hts _ (List.mem_of_getLast? hlast)) (by decide)
    refine .inr ⟨fun hquoted => ?_, if_neg hlast⟩
    obtain ⟨us, -, hus⟩ := mem_quoted.1 hquoted
    obtain rfl := (List.cons.inj hus).2
    exact hlast (by simp)
  · refine .inl ⟨mem_quoted.2 ⟨ts, hts, rfl⟩, ?_⟩
    rw [Segment.unquote?, if_pos (by simp), List.drop_one, List.tail_cons]

/-! ### Segments as pieces -/

/-- A line break is in no other piece. -/
theorem newline_notMem {us : List Char} (h : p.Shape c us) (hp : p.family ≠ .newline) :
    '\n' ∉ c :: us := by
  have hname : ∀ {c us}, Shape .name c us → '\n' ∉ c :: us := by
    rintro c us ⟨hc, hus⟩ hmem
    rcases List.mem_cons.1 hmem with rfl | hmem
    · exact absurd hc (by decide)
    · exact absurd (hus _ hmem) (by decide)
  cases p with
  | number =>
    intro hmem
    rcases List.mem_cons.1 hmem with rfl | hmem
    · exact absurd h.1 (by decide)
    · exact absurd (h.2 _ hmem) (by decide)
  | truth b => exact hname (h.name_of_word rfl)
  | keyword w => exact hname (h.name_of_word rfl)
  | name => exact hname h
  | text =>
    obtain ⟨rfl, ts, hts, hus⟩ := h
    have hnot : '\n' ∉ ts := fun hmem => absurd (hts _ hmem) (by decide)
    rcases hus with rfl | rfl <;> simpa using hnot
  | comment =>
    obtain ⟨rfl, ts, hts, rfl⟩ := h
    have hnot : '\n' ∉ ts := fun hmem => absurd (hts _ hmem) (by decide)
    simpa using hnot
  | symbol m =>
    rw [show c :: us = m.text.toList from h]
    cases m <;> decide
  | newline => exact absurd rfl hp
  | blank =>
    intro hmem
    rcases List.mem_cons.1 hmem with rfl | hmem
    · exact absurd h.1 (by decide)
    · exact absurd (h.2 _ hmem) (by decide)

namespace Segment

variable {seg : Segment} {limit : Nat}

/-- Lines are counted by the line breaks in the text. -/
theorem lineAfter_eq (hseg : seg.pattern.Wins seg.chars) (n : Nat) :
    seg.lineAfter (1 + n) = 1 + (n + seg.chars.count '\n') := by
  obtain ⟨c, us, hchars, hshape⟩ := mem_language_iff.1 hseg.mem
  have hnone (hfamily : seg.pattern.family ≠ .newline) : seg.chars.count '\n' = 0 := by
    rw [hchars, List.count_eq_zero]
    exact newline_notMem hshape hfamily
  obtain ⟨kind, chars⟩ := seg
  cases kind with
  | newline =>
    obtain ⟨rfl, rfl⟩ := hshape
    rw [hchars]
    rfl
  | word =>
    have hword : (wordPattern chars).family ≠ .newline := by
      rcases wordPattern_cases chars with ⟨b, -, hp⟩ | ⟨k, -, hp⟩ | hp
      all_goals simp [hp, Pattern.family]
    rw [hnone hword]
    rfl
  | _ =>
    rw [hnone (by simp [pattern, Pattern.family])]
    rfl

/-- A well-formed piece is held to the limit. -/
theorem limited_cases {x : Piece} {t : Token} (hwell : x.WellFormed) (ht : x.token? = some t) :
    (x.Sound limit ∧ limited limit x.chars t = .ok x.token?) ∨
      ∃ e, x.Fault limit e ∧ limited limit x.chars t = .error e := by
  unfold limited
  split
  · next hlong => exact .inr ⟨_, .tooLong hwell (by simp [ht]) hlong, rfl⟩
  · next hlong => exact .inl ⟨⟨hwell, fun _ => by omega⟩, by rw [ht]⟩

/-- A word is the token that its pattern says. -/
theorem token?_wordPattern (w : List Char) :
    (⟨wordPattern w, w⟩ : Piece).token? = some (Token.ofWord (String.ofList w)) := by
  unfold wordPattern
  rcases ofWord_cases (String.ofList w) with ⟨b, -, hword⟩ | ⟨k, -, hword⟩ | ⟨hword, -, -⟩
  all_goals
    rw [hword]
    rfl

theorem wellFormed_wordPattern (w : List Char) : (⟨wordPattern w, w⟩ : Piece).WellFormed := by
  rcases wordPattern_cases w with ⟨b, -, hp⟩ | ⟨k, -, hp⟩ | hp
  all_goals
    rw [hp]
    exact ⟨fun h => (by cases h), fun h => (by cases h)⟩

/-- The token of a segment, if its piece is sound, or else the fault of the piece. -/
theorem token?_cases (limit : Nat) (hseg : seg.pattern.Wins seg.chars) :
    (seg.piece.Sound limit ∧ seg.token? limit = .ok seg.piece.token?) ∨
      ∃ e, seg.piece.Fault limit e ∧ seg.token? limit = .error e := by
  obtain ⟨kind, chars⟩ := seg
  cases kind with
  | number =>
    rcases ofLexeme?_cases hseg.mem with ⟨hdecimal, hvalue⟩ | ⟨hdecimal, hvalue⟩
    · have htoken : token? limit ⟨.number, chars⟩ =
          limited limit chars (.number (Piece.decimalValue chars)) := by simp only [token?, hvalue]
      rw [htoken]
      exact limited_cases (x := ⟨.number, chars⟩) ⟨fun _ => hdecimal, fun h => (by cases h)⟩ rfl
    · exact .inr ⟨_, .malformed hdecimal, by simp only [token?, hvalue]⟩
  | word => exact limited_cases (wellFormed_wordPattern chars) (token?_wordPattern chars)
  | text =>
    rcases unquote?_cases hseg.mem with ⟨hquoted, hvalue⟩ | ⟨hquoted, hvalue⟩
    · have htoken : token? limit ⟨.text, chars⟩ =
          limited limit chars (.text (String.ofList (chars.drop 1).dropLast)) := by
        simp only [token?, hvalue]
      rw [htoken]
      exact limited_cases (x := ⟨.text, chars⟩) ⟨fun h => (by cases h), fun _ => hquoted⟩ rfl
    · exact .inr ⟨_, .unclosed hquoted, by simp only [token?, hvalue]⟩
  | symbol m =>
    exact limited_cases (x := ⟨.symbol m, chars⟩)
      ⟨fun h => (by cases h), fun h => (by cases h)⟩ rfl
  | comment | newline | blank =>
    exact .inl ⟨⟨⟨fun h => (by cases h), fun h => (by cases h)⟩, fun h => (by cases h)⟩, rfl⟩

end Segment

/-! ### The whole text -/

namespace Token

open Segment

variable {limit : Nat} {before : List Char} {segs : List Segment} {tokens : List Located} {e : Error}

theorem ofSegments_of_sound {seg : Segment} {line : Nat} {t : Option Token}
    (h : seg.token? limit = .ok t) :
    ofSegments limit line (seg :: segs) tail =
      (ofSegments limit (seg.lineAfter line) segs tail).map
        ((t.map fun t => ⟨t, line⟩).toList ++ ·) := by
  rcases hrest : ofSegments limit (seg.lineAfter line) segs tail with e | tokens
  all_goals
    cases t
    all_goals
      simp only [ofSegments, h, hrest]
      rfl

theorem ofSegments_eq_ok_iff (hsegs : ∀ seg ∈ segs, seg.pattern.Wins seg.chars) :
    ofSegments limit (1 + before.count '\n') segs tail = .ok tokens ↔
      tail = [] ∧ (∀ x ∈ segs.map piece, x.Sound limit) ∧
        tokens = located before (segs.map piece) ++
          [⟨.endOfInput, 1 + (before ++ (segs.map piece).flatMap Piece.chars).count '\n'⟩] := by
  -- `before` takes in each piece, so that lines are always counted from the start
  induction segs generalizing before tokens with
  | nil =>
    cases tail with
    | nil => simp [ofSegments, located, eq_comm]
    | cons c cs => simp [ofSegments]
  | cons seg segs ih =>
    obtain ⟨hseg, hsegs⟩ := List.forall_mem_cons.1 hsegs
    rcases token?_cases limit hseg with ⟨hsound, htoken⟩ | ⟨e, hfault, htoken⟩
    · rw [ofSegments_of_sound htoken, lineAfter_eq hseg, ← List.count_append]
      constructor
      · intro h
        rcases hrest : ofSegments limit (1 + (before ++ seg.chars).count '\n') segs tail with e | ts
        · rw [hrest] at h
          cases h
        · rw [hrest] at h
          obtain rfl : _ ++ ts = tokens := Except.ok.inj h
          obtain ⟨htail, hall, rfl⟩ := (ih hsegs).1 hrest
          refine ⟨htail, List.forall_mem_cons.2 ⟨hsound, hall⟩, ?_⟩
          simp [located, piece]
      · rintro ⟨htail, hall, rfl⟩
        rw [(ih hsegs).2 ⟨htail, (List.forall_mem_cons.1 hall).2, rfl⟩]
        simp [located, piece, Except.map]
    · have hnot := hfault.not_sound
      rw [ofSegments, htoken]
      simp [hnot]

theorem ofSegments_eq_error_iff (hsegs : ∀ seg ∈ segs, seg.pattern.Wins seg.chars) :
    ofSegments limit (1 + before.count '\n') segs tail = .error e ↔
      FirstFault limit before (segs.map piece) tail e := by
  induction segs generalizing before with
  | nil =>
    cases tail with
    | nil => exact ⟨fun h => (by cases h), fun h => (by cases h)⟩
    | cons c cs =>
      constructor
      · intro h
        cases h
        exact .tail
      · intro h
        cases h
        rfl
  | cons seg segs ih =>
    obtain ⟨hseg, hsegs⟩ := List.forall_mem_cons.1 hsegs
    rcases token?_cases limit hseg with ⟨hsound, htoken⟩ | ⟨e', hfault, htoken⟩
    · rw [ofSegments_of_sound htoken, lineAfter_eq hseg, ← List.count_append]
      have hrest : (ofSegments limit (1 + (before ++ seg.chars).count '\n') segs tail).map
            ((seg.piece.token?.map fun t => ⟨t, 1 + before.count '\n'⟩).toList ++ ·) = .error e ↔
          ofSegments limit (1 + (before ++ seg.chars).count '\n') segs tail = .error e := by
        rcases ofSegments limit (1 + (before ++ seg.chars).count '\n') segs tail with e₁ | ts
        · exact Iff.rfl
        · exact ⟨fun h => (by cases h), fun h => (by cases h)⟩
      rw [hrest, ih hsegs]
      constructor
      · exact .later hsound
      · intro h
        cases h with
        | here hfault => exact absurd hsound hfault.not_sound
        | later _ h => exact h
    · rw [ofSegments, htoken]
      constructor
      · intro h
        cases h
        exact .here hfault
      · intro h
        cases h with
        | here hfault' => rw [hfault.unique hfault']
        | later hsound _ => exact absurd hsound hfault.not_sound

theorem wins_split (cs : List Char) :
    ∀ seg ∈ (split cs).1, seg.pattern.Wins seg.chars := fun seg hseg =>
  (cuts_split cs).wins seg.piece (List.mem_map_of_mem hseg)

theorem scan_eq_ok_iff {source : String} :
    scan limit source = .ok tokens ↔
      (split source.toList).2 = [] ∧
        (∀ x ∈ (split source.toList).1.map piece, x.Sound limit) ∧
        tokens = located [] ((split source.toList).1.map piece) ++
          [⟨.endOfInput, 1 + source.toList.count '\n'⟩] := by
  show ofSegments limit (1 + ([] : List Char).count '\n') _ _ = _ ↔ _
  rw [ofSegments_eq_ok_iff (wins_split _), List.nil_append]
  refine and_congr_right fun htail => ?_
  have hwhole := (cuts_split source.toList).append_eq
  rw [htail, List.append_nil] at hwhole
  rw [hwhole]

/-- Scanning cuts a text at the longest matches, which can be done in one way only.  It yields the
tokens of the pieces if all of them are sound and nothing is left over, and the first fault if
not. -/
theorem scan_eq_iff (limit : Nat) (source : String) :
    ∃ pieces tail, Cuts source.toList pieces tail ∧
      (∀ pieces' tail', Cuts source.toList pieces' tail' → pieces' = pieces ∧ tail' = tail) ∧
      (∀ tokens, scan limit source = .ok tokens ↔
        tail = [] ∧ (∀ x ∈ pieces, x.Sound limit) ∧
          tokens = located [] pieces ++ [⟨.endOfInput, 1 + source.toList.count '\n'⟩]) ∧
      (∀ e, scan limit source = .error e ↔ FirstFault limit [] pieces tail e) := by
  have hcuts := cuts_split source.toList
  refine ⟨_, _, hcuts, fun _ _ h => h.unique hcuts, fun tokens => scan_eq_ok_iff, fun e => ?_⟩
  show ofSegments limit (1 + ([] : List Char).count '\n') _ _ = _ ↔ _
  rw [ofSegments_eq_error_iff (wins_split _)]

/-! ### Errors, and strings that fit into the limit -/

theorem scan_error {source : String} (h : scan limit source = .error e) :
    ∃ line g, e = .lexical line g := by
  have hfault : FirstFault limit [] _ _ e := (ofSegments_eq_error_iff (wins_split _)).1 h
  exact hfault.lexical

theorem exists_piece_of_mem_located {pieces : List Piece} {t : Located}
    (h : t ∈ located before pieces) : ∃ x ∈ pieces, x.token? = some t.token := by
  induction pieces generalizing before with
  | nil => cases h
  | cons x xs ih =>
    rcases List.mem_append.1 h with hx | hxs
    · rcases htoken : x.token? with - | token
      · rw [htoken] at hx
        cases hx
      · rw [htoken] at hx
        obtain rfl := List.mem_singleton.1 hx
        exact ⟨x, List.mem_cons_self, htoken⟩
    · obtain ⟨y, hy, htoken⟩ := ih hxs
      exact ⟨y, List.mem_cons_of_mem _ hy, htoken⟩

/-- A string that was scanned fits into the limit with its quotes. -/
theorem length_le_of_mem_scan {source s : String} {line : Nat}
    (h : scan limit source = .ok tokens) (hmem : ⟨.text s, line⟩ ∈ tokens) :
    s.length + 2 ≤ limit := by
  obtain ⟨-, hsound, rfl⟩ := scan_eq_ok_iff.1 h
  rcases List.mem_append.1 hmem with hmem | hmem
  · obtain ⟨⟨p, w⟩, hx, htoken⟩ := exists_piece_of_mem_located hmem
    cases p with
    | text =>
      obtain ⟨ts, -, hw⟩ := mem_quoted.1 ((hsound _ hx).wellFormed.text rfl)
      have hlength := (hsound _ hx).length_le (by simp [htoken])
      obtain rfl : w = '\"' :: (ts ++ ['\"']) := hw
      obtain rfl : String.ofList ts = s := by simpa [Piece.token?] using htoken
      rw [String.length_ofList]
      rwa [List.length_cons, List.length_append, List.length_singleton] at hlength
    | _ => cases htoken
  · cases List.mem_singleton.1 hmem

end Token

end TableScript
