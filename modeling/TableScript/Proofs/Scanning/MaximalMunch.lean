import Mathlib.Data.List.TakeWhile
import TableScript.Proofs.Scanning.Pattern
import TableScript.Token.Scan

/-!
# The longest match

`Cuts cs pieces tail` says what it is to cut a text from left to right, at each place the longest
text that some pattern matches, until none does.  A text can be cut in one way only
(`Cuts.unique`), and `Segment.split` is that way (`cuts_split`).

The work is in one step.  `Segment.next` looks at one character and then runs on; that no other
pattern could have gone further is seen from the family of the character, which leaves one pattern
to compare with, up to words and symbols.
-/

namespace TableScript

open Pattern

/-- Some pattern matches the text. -/
def Matched (w : List Char) : Prop := ∃ p : Pattern, w ∈ p.language

/-- The longest matched text that `cs` starts with. -/
structure Longest (w cs : List Char) : Prop where
  starts : w <+: cs
  matched : Matched w
  length_le : ∀ w', w' <+: cs → Matched w' → w'.length ≤ w.length

/-- A name gives way to a keyword or a truth value of the same spelling. -/
def Pattern.YieldsTo : Pattern → Pattern → Prop
  | .name, .keyword _ | .name, .truth _ => True
  | _, _ => False

/-- The pattern that a text is counted to. -/
structure Pattern.Wins (p : Pattern) (w : List Char) : Prop where
  mem : w ∈ p.language
  others : ∀ q : Pattern, w ∈ q.language → q = p ∨ q.YieldsTo p

/-- A text with the pattern that it is counted to. -/
structure Piece where
  pattern : Pattern
  chars : List Char

/-- Cutting a text at the longest match until nothing matches; the last argument is what is left
then. -/
inductive Cuts : List Char → List Piece → List Char → Prop
  | stop {cs} : (∀ w, w <+: cs → ¬ Matched w) → Cuts cs [] cs
  | piece {w rest p pieces tail} : Longest w (w ++ rest) → p.Wins w → Cuts rest pieces tail →
      Cuts (w ++ rest) (⟨p, w⟩ :: pieces) tail

variable {w cs rest : List Char} {p : Pattern} {c : Char}

/-! ### There is one way to cut -/

theorem Pattern.YieldsTo.eq_name {q : Pattern} (h : q.YieldsTo p) : q = .name := by
  cases q with
  | name => rfl
  | _ => cases h

theorem Pattern.Wins.unique {q : Pattern} (hp : p.Wins w) (hq : q.Wins w) : p = q := by
  rcases hp.others q hq.mem with h | hyields
  · exact h.symm
  · rcases hq.others p hp.mem with h | hyields'
    · exact h
    · rw [hyields.eq_name, hyields'.eq_name]

theorem Longest.unique {w' : List Char} (h : Longest w cs) (h' : Longest w' cs) : w = w' := by
  have hlength : w.length = w'.length :=
    Nat.le_antisymm (h'.length_le w h.starts h.matched) (h.length_le w' h'.starts h'.matched)
  exact (List.prefix_of_prefix_length_le h.starts h'.starts hlength.le).eq_of_length hlength

theorem Cuts.unique {pieces pieces' : List Piece} {tail tail' : List Char}
    (h : Cuts cs pieces tail) (h' : Cuts cs pieces' tail') : pieces = pieces' ∧ tail = tail' := by
  induction h generalizing pieces' tail' with
  | stop hnone =>
    cases h' with
    | stop => exact ⟨rfl, rfl⟩
    | piece hlongest => exact absurd hlongest.matched (hnone _ hlongest.starts)
  | @piece w rest p pieces tail hlongest hwins _ ih =>
    -- the other cut need not show the text as `w ++ rest`
    generalize hcs : w ++ rest = cs at h' hlongest
    cases h' with
    | stop hnone => exact absurd hlongest.matched (hnone _ hlongest.starts)
    | @piece w' rest' p' pieces₁ _ hlongest' hwins' hrest =>
      obtain rfl := hlongest.unique hlongest'
      obtain rfl := List.append_cancel_left hcs
      obtain rfl := hwins.unique hwins'
      obtain ⟨rfl, rfl⟩ := ih hrest
      exact ⟨rfl, rfl⟩

/-! ### How far a run goes -/

theorem length_le_takeWhile {f : Char → Bool} (hstarts : w <+: cs) (hall : ∀ x ∈ w, f x = true) :
    w.length ≤ (cs.takeWhile f).length := by
  obtain ⟨r, rfl⟩ := hstarts
  rw [List.takeWhile_append_of_pos hall, List.length_append]
  exact Nat.le_add_right _ _

/-- Where a run is closed by a character that does not belong to it, it stops there. -/
theorem takeWhile_of_closed {f : Char → Bool} {ts : List Char} (hall : ∀ x ∈ ts, f x = true)
    (hc : f c = false) (hstarts : ts ++ [c] <+: cs) :
    ∃ r, cs.dropWhile f = c :: r ∧ cs.takeWhile f = ts := by
  obtain ⟨r, rfl⟩ := hstarts
  refine ⟨r, ?_, ?_⟩
  · rw [List.append_assoc, List.dropWhile_append_of_pos hall]
    exact List.dropWhile_cons_of_neg (by simp [hc])
  · rw [List.append_assoc, List.takeWhile_append_of_pos hall]
    rw [List.singleton_append, List.takeWhile_cons_of_neg (by simp [hc]), List.append_nil]

/-- A matched text that `c :: cs` starts with is of the family of `c`. -/
theorem matched_cons (hstarts : w <+: c :: cs) (hw : Matched w) :
    ∃ p : Pattern, ∃ us, w = c :: us ∧ us <+: cs ∧ p.Shape c us ∧ p.family = Family.of c := by
  obtain ⟨p, hp⟩ := hw
  obtain ⟨d, us, rfl, hshape⟩ := mem_language_iff.1 hp
  obtain ⟨rfl, hus⟩ := List.cons_prefix_cons.1 hstarts
  exact ⟨p, us, rfl, hus, hshape, hshape.family.symm⟩

namespace Segment

/-! ### Symbols -/

theorem symbol?_taken {taken : List Char} {mark : Symbol}
    (h : symbol? cs = some (mark, taken, rest)) : taken = mark.text.toList := by
  unfold symbol? at h
  split at h
  all_goals
    cases h
    try rfl

/-- Something is found behind a character that is a symbol by itself and starts others too. -/
theorem exists_symbol?_of_shared (r : List Char) :
    (∃ found, symbol? ('=' :: r) = some found) ∧ (∃ found, symbol? ('>' :: r) = some found) ∧
      ∃ found, symbol? ('<' :: r) = some found := by
  by_cases hequal : ∃ t, r = '=' :: t
  · obtain ⟨t, rfl⟩ := hequal
    exact ⟨⟨_, rfl⟩, ⟨_, rfl⟩, ⟨_, rfl⟩⟩
  · have hnot : ∀ t, r = '=' :: t → False := fun t ht => hequal ⟨t, ht⟩
    refine ⟨?_, ⟨(.greater, ['>'], r), ?_⟩, ⟨(.less, ['<'], r), ?_⟩⟩
    · by_cases href : ∃ t, r = '&' :: t
      · obtain ⟨t, rfl⟩ := href
        exact ⟨_, rfl⟩
      · refine ⟨(.assign, ['='], r), ?_⟩
        rw [symbol?]
        · exact hnot
        · exact fun t ht => href ⟨t, ht⟩
    · rw [symbol?]
      exact hnot
    · rw [symbol?]
      exact hnot

theorem exists_symbol? (m : Symbol) (r : List Char) :
    ∃ found, symbol? (m.text.toList ++ r) = some found := by
  obtain ⟨hassign, hgreater, hless⟩ := exists_symbol?_of_shared r
  cases m with
  | assign => exact hassign
  | greater => exact hgreater
  | less => exact hless
  | _ => exact ⟨_, rfl⟩

/-- What is found is at least as long as the symbol. -/
theorem length_le_of_symbol? {m mark : Symbol} {r taken : List Char}
    (h : symbol? (m.text.toList ++ r) = some (mark, taken, rest)) :
    m.text.toList.length ≤ taken.length := by
  have hpos : 0 < taken.length := List.length_pos_iff.2 (symbol?_append h).2
  cases m with
  | equal | notEqual | greaterEqual | lessEqual | refAssign =>
    cases h
    exact Nat.le_refl _
  | _ => exact hpos

theorem symbol?_text (m : Symbol) : ∃ taken rest, symbol? m.text.toList = some (m, taken, rest) := by
  cases m <;> exact ⟨_, _, rfl⟩

theorem symbol_eq_of_text {m m' : Symbol} (h : m.text.toList = m'.text.toList) : m = m' := by
  obtain ⟨taken, rest, hm⟩ := symbol?_text m
  obtain ⟨taken', rest', hm'⟩ := symbol?_text m'
  rw [h, hm'] at hm
  cases hm
  rfl

/-! ### The pattern of a segment -/

/-- A word is a truth value, a keyword or a name. -/
def wordPattern (w : List Char) : Pattern :=
  match Token.ofWord (String.ofList w) with
  | .bool b => .truth b
  | .keyword k => .keyword k
  | _ => .name

/-- The pattern that a segment was taken for. -/
def pattern (seg : Segment) : Pattern :=
  match seg.kind with
  | .number => .number
  | .word => wordPattern seg.chars
  | .text => .text
  | .comment => .comment
  | .symbol m => .symbol m
  | .newline => .newline
  | .blank => .blank

/-- A segment as a piece. -/
def piece (seg : Segment) : Piece := ⟨seg.pattern, seg.chars⟩

/-- What a word is, by its spelling. -/
theorem ofWord_cases (s : String) :
    (∃ b, s = boolText b ∧ Token.ofWord s = .bool b) ∨
      (∃ k : Keyword, s = k.text ∧ Token.ofWord s = .keyword k) ∨
      (Token.ofWord s = .name s ∧ (∀ b, s ≠ boolText b) ∧ ∀ k : Keyword, s ≠ k.text) := by
  unfold Token.ofWord
  split
  · exact .inl ⟨true, rfl, rfl⟩
  · exact .inl ⟨false, rfl, rfl⟩
  · exact .inr (.inl ⟨.functionWord, rfl, rfl⟩)
  · exact .inr (.inl ⟨.ifWord, rfl, rfl⟩)
  · exact .inr (.inl ⟨.elseWord, rfl, rfl⟩)
  · exact .inr (.inl ⟨.loopWord, rfl, rfl⟩)
  · exact .inr (.inl ⟨.getWord, rfl, rfl⟩)
  · exact .inr (.inl ⟨.returnWord, rfl, rfl⟩)
  · refine .inr (.inr ⟨rfl, fun b => ?_, fun k => ?_⟩)
    · cases b <;> assumption
    · cases k <;> assumption

/-- Texts of the same first character and family are of the same pattern, words apart. -/
theorem wins_of_shape {us : List Char} (h : p.Shape c us) (hp : p.family ≠ .word) :
    p.Wins (c :: us) := by
  refine ⟨mem_language_iff.2 ⟨c, us, rfl, h⟩, fun q hq => .inl ?_⟩
  obtain ⟨d, vs, hcons, hshape⟩ := mem_language_iff.1 hq
  obtain ⟨rfl, rfl⟩ := List.cons.inj hcons
  have hfamily : q.family = p.family := hshape.family.symm.trans h.family
  cases p with
  | symbol m =>
    cases q with
    | symbol m' => rw [symbol_eq_of_text (hshape.symm.trans h)]
    | _ => cases hfamily
  | truth b | keyword w | name => exact absurd rfl hp
  | _ =>
    cases q <;> first | rfl | cases hfamily

theorem wordPattern_boolText (b : Bool) : wordPattern (boolText b).toList = .truth b := by
  cases b <;> rfl

theorem wordPattern_text (k : Keyword) : wordPattern k.text.toList = .keyword k := by
  cases k <;> rfl

/-- What a word is counted to, by its spelling. -/
theorem wordPattern_cases (w : List Char) :
    (∃ b, w = (boolText b).toList ∧ wordPattern w = .truth b) ∨
      (∃ k : Keyword, w = k.text.toList ∧ wordPattern w = .keyword k) ∨ wordPattern w = .name := by
  have hw : w = (String.ofList w).toList := String.toList_ofList.symm
  unfold wordPattern
  rcases ofWord_cases (String.ofList w) with ⟨b, hs, hword⟩ | ⟨k, hs, hword⟩ | ⟨hword, -, -⟩
  · exact .inl ⟨b, hs ▸ hw, by rw [hword]⟩
  · exact .inr (.inl ⟨k, hs ▸ hw, by rw [hword]⟩)
  · exact .inr (.inr (by rw [hword]))

/-- A word is counted to a keyword or a truth value if it is spelled like one. -/
theorem wins_wordPattern {us : List Char} (h : Shape .name c us) :
    (wordPattern (c :: us)).Wins (c :: us) := by
  have hmem : c :: us ∈ language .name := mem_language_iff.2 ⟨c, us, rfl, h⟩
  constructor
  · rcases wordPattern_cases (c :: us) with ⟨b, hw, hp⟩ | ⟨k, hw, hp⟩ | hp
    · rw [hp, hw]
      rfl
    · rw [hp, hw]
      rfl
    · rwa [hp]
  · intro q hq
    obtain ⟨d, vs, hcons, hshape⟩ := mem_language_iff.1 hq
    obtain ⟨rfl, rfl⟩ := List.cons.inj hcons
    have hfamily : q.family = .word := hshape.family.symm.trans h.family
    cases q with
    | truth b => exact .inl (by rw [mem_singleton.1 hq, wordPattern_boolText])
    | keyword k => exact .inl (by rw [mem_singleton.1 hq, wordPattern_text])
    | name =>
      rcases wordPattern_cases (c :: us) with ⟨b, -, hp⟩ | ⟨k, -, hp⟩ | hp
      · exact .inr (by rw [hp]; trivial)
      · exact .inr (by rw [hp]; trivial)
      · exact .inl hp.symm
    | _ => cases hfamily

/-! ### One step -/

theorem next_cons (c : Char) (cs : List Char) :
    next (c :: cs) = match Family.of c with
      | .number => some (run .number isNumberChar c cs)
      | .word => some (run .word isWordChar c cs)
      | .blank => some (run .blank isBlank c cs)
      | .newline => some (⟨.newline, ['\n']⟩, cs)
      | .text => some (string cs)
      | .comment => comment? cs
      | .symbol =>
        (symbol? (c :: cs)).map fun (mark, taken, rest) => (⟨.symbol mark, taken⟩, rest) := by
  rw [next, Family.of]
  split_ifs <;> rfl

/-- A run is the longest match if all matches of its family are runs. -/
theorem longest_run {goesOn : Char → Bool} (hmatched : Matched (c :: cs.takeWhile goesOn))
    (hall : ∀ (p : Pattern) us, p.Shape c us → p.family = Family.of c →
      ∀ x ∈ us, goesOn x = true) :
    Longest (c :: cs.takeWhile goesOn) (c :: cs) := by
  refine ⟨List.cons_prefix_cons.2 ⟨rfl, List.takeWhile_prefix _⟩, hmatched, ?_⟩
  intro w hstarts hw
  obtain ⟨p, us, rfl, hus, hshape, hfamily⟩ := matched_cons hstarts hw
  have hle := length_le_takeWhile hus (hall p us hshape hfamily)
  simpa using hle

theorem longest_string (cs : List Char) :
    Longest (string cs).1.chars ('\"' :: cs) ∧
      (string cs).1.pattern.Wins (string cs).1.chars := by
  have htext : ∀ x ∈ cs.takeWhile isTextChar, isTextChar x = true := fun x => List.mem_takeWhile_imp
  unfold string
  split
  · next r hdrop =>
    -- closed: both closed and open strings that start here end at this quote or before it
    have hwins : Pattern.text.Wins ('\"' :: (cs.takeWhile isTextChar ++ ['\"'])) :=
      wins_of_shape ⟨rfl, _, htext, .inr rfl⟩ (by simp [Pattern.family])
    refine ⟨⟨?_, ⟨_, hwins.mem⟩, ?_⟩, hwins⟩
    · refine ⟨r, ?_⟩
      have hcs := List.takeWhile_append_dropWhile (p := isTextChar) (l := cs)
      rw [hdrop] at hcs
      simpa using hcs
    · intro w hstarts hw
      obtain ⟨p, us, rfl, hus, hshape, hfamily⟩ := matched_cons hstarts hw
      cases p with
      | text =>
        obtain ⟨-, ts, hts, rfl | rfl⟩ := hshape
        · have hle := length_le_takeWhile hus hts
          simp
          omega
        · have hle := length_le_takeWhile ((List.prefix_append ts _).trans hus) hts
          simpa using hle
      | _ => cases hfamily
  · next hdrop =>
    have hwins : Pattern.text.Wins ('\"' :: cs.takeWhile isTextChar) :=
      wins_of_shape ⟨rfl, _, htext, .inl rfl⟩ (by simp [Pattern.family])
    refine ⟨⟨List.cons_prefix_cons.2 ⟨rfl, List.takeWhile_prefix _⟩, ⟨_, hwins.mem⟩, ?_⟩, hwins⟩
    intro w hstarts hw
    obtain ⟨p, us, rfl, hus, hshape, hfamily⟩ := matched_cons hstarts hw
    cases p with
    | text =>
      obtain ⟨-, ts, hts, rfl | rfl⟩ := hshape
      · simpa using length_le_takeWhile hus hts
      · -- a closed string would have been found
        obtain ⟨r, hclosed, -⟩ := takeWhile_of_closed hts (by decide) hus
        exact absurd hclosed (hdrop r)
    | _ => cases hfamily

theorem longest_comment {seg : Segment} (h : comment? cs = some (seg, rest)) :
    Longest seg.chars ('#' :: cs) ∧ seg.pattern.Wins seg.chars := by
  obtain ⟨happend, -⟩ := comment?_append h
  unfold comment? at h
  split at h
  · next r hdrop =>
    cases h
    have hall : ∀ x ∈ cs.takeWhile isCommentChar, isCommentChar x = true :=
      fun x => List.mem_takeWhile_imp
    have hwins : Pattern.comment.Wins ('#' :: (cs.takeWhile isCommentChar ++ ['#'])) :=
      wins_of_shape ⟨rfl, _, hall, rfl⟩ (by simp [Pattern.family])
    refine ⟨⟨⟨_, happend⟩, ⟨_, hwins.mem⟩, ?_⟩, hwins⟩
    intro w hstarts hw
    obtain ⟨p, us, rfl, hus, hshape, hfamily⟩ := matched_cons hstarts hw
    cases p with
    | comment =>
      obtain ⟨-, ts, hts, rfl⟩ := hshape
      have hle := length_le_takeWhile ((List.prefix_append ts _).trans hus) hts
      simpa using hle
    | _ => cases hfamily
  · cases h

theorem not_matched_comment (h : comment? cs = none) (hstarts : w <+: '#' :: cs) :
    ¬ Matched w := by
  intro hw
  obtain ⟨p, us, rfl, hus, hshape, hfamily⟩ := matched_cons hstarts hw
  cases p with
  | comment =>
    obtain ⟨-, ts, hts, rfl⟩ := hshape
    obtain ⟨r, hclosed, -⟩ := takeWhile_of_closed hts (by decide) hus
    rw [comment?, hclosed] at h
    cases h
  | _ => cases hfamily

/-- A matched text of the family of symbols is a symbol. -/
theorem starts_of_matched_symbol (hc : Family.of c = .symbol) (hstarts : w <+: c :: cs)
    (hw : Matched w) : ∃ m : Symbol, w = m.text.toList ∧ m.text.toList <+: c :: cs := by
  obtain ⟨p, us, rfl, hus, hshape, hfamily⟩ := matched_cons hstarts hw
  cases p with
  | symbol m => exact ⟨m, hshape, hshape ▸ hstarts⟩
  | _ =>
    rw [hc] at hfamily
    cases hfamily

theorem longest_symbol {mark : Symbol} {taken : List Char} (hc : Family.of c = .symbol)
    (h : symbol? (c :: cs) = some (mark, taken, rest)) :
    Longest taken (c :: cs) ∧ (Pattern.symbol mark).Wins taken := by
  obtain ⟨happend, hne⟩ := symbol?_append h
  obtain ⟨d, us, rfl⟩ := List.exists_cons_of_ne_nil hne
  have hwins : (Pattern.symbol mark).Wins (d :: us) :=
    wins_of_shape (symbol?_taken h) (by simp [Pattern.family])
  refine ⟨⟨⟨rest, happend⟩, ⟨_, hwins.mem⟩, ?_⟩, hwins⟩
  intro w hstarts hw
  obtain ⟨m, rfl, r, hr⟩ := starts_of_matched_symbol hc hstarts hw
  rw [← hr] at h
  exact length_le_of_symbol? h

theorem not_matched_symbol (hc : Family.of c = .symbol) (h : symbol? (c :: cs) = none)
    (hstarts : w <+: c :: cs) : ¬ Matched w := by
  intro hw
  obtain ⟨m, rfl, r, hr⟩ := starts_of_matched_symbol hc hstarts hw
  obtain ⟨found, hfound⟩ := exists_symbol? m r
  rw [hr, h] at hfound
  cases hfound

/-- A segment is the longest match, and it is taken for the right pattern. -/
theorem longest_of_next {seg : Segment} (h : next cs = some (seg, rest)) :
    Longest seg.chars cs ∧ seg.pattern.Wins seg.chars := by
  cases cs with
  | nil => cases h
  | cons c cs =>
    rw [next_cons] at h
    have hstarts := Family.starts_of c
    rcases hfamily : Family.of c with _ | _ | _ | _ | _ | _ | _
    all_goals simp only [hfamily] at h hstarts
    · -- numbers
      cases h
      have hwins : Pattern.number.Wins (c :: cs.takeWhile isNumberChar) :=
        wins_of_shape ⟨hstarts, fun x => List.mem_takeWhile_imp⟩ (by simp [Pattern.family])
      refine ⟨longest_run ⟨_, hwins.mem⟩ fun p us hshape hp => ?_, hwins⟩
      rw [hfamily] at hp
      cases p with
      | number => exact hshape.2
      | _ => cases hp
    · -- words
      cases h
      have hwins : (wordPattern (c :: cs.takeWhile isWordChar)).Wins (c :: cs.takeWhile isWordChar) :=
        wins_wordPattern ⟨hstarts, fun x => List.mem_takeWhile_imp⟩
      refine ⟨longest_run ⟨_, hwins.mem⟩ fun p us hshape hp => ?_, hwins⟩
      exact (hshape.name_of_word (hp.trans hfamily)).2
    · -- blanks
      cases h
      have hwins : Pattern.blank.Wins (c :: cs.takeWhile isBlank) :=
        wins_of_shape ⟨hstarts, fun x => List.mem_takeWhile_imp⟩ (by simp [Pattern.family])
      refine ⟨longest_run ⟨_, hwins.mem⟩ fun p us hshape hp => ?_, hwins⟩
      rw [hfamily] at hp
      cases p with
      | blank => exact hshape.2
      | _ => cases hp
    · -- a line break
      cases h
      obtain rfl := hstarts
      have hwins : Pattern.newline.Wins ['\n'] := wins_of_shape ⟨rfl, rfl⟩ (by simp [Pattern.family])
      refine ⟨⟨⟨_, rfl⟩, ⟨_, hwins.mem⟩, fun w hw hmatched => ?_⟩, hwins⟩
      obtain ⟨p, us, rfl, -, hshape, hp⟩ := matched_cons hw hmatched
      cases p with
      | newline =>
        obtain ⟨-, rfl⟩ := hshape
        exact Nat.le_refl _
      | _ => cases hp
    · -- a string
      obtain rfl := hstarts
      have hseg : string cs = (seg, rest) := Option.some.inj h
      have hstring := longest_string cs
      rwa [hseg] at hstring
    · -- a comment
      obtain rfl := hstarts
      exact longest_comment h
    · -- a symbol
      obtain ⟨⟨mark, taken, rest'⟩, hfound, he⟩ := Option.map_eq_some_iff.1 h
      cases he
      exact longest_symbol hfamily hfound

/-- Where there is no segment, nothing matches. -/
theorem not_matched_of_next (h : next cs = none) (hstarts : w <+: cs) : ¬ Matched w := by
  cases cs with
  | nil =>
    obtain rfl := List.prefix_nil.1 hstarts
    rintro ⟨p, hp⟩
    obtain ⟨c, us, hcons, -⟩ := mem_language_iff.1 hp
    cases hcons
  | cons c cs =>
    rw [next_cons] at h
    have hc := Family.starts_of c
    rcases hfamily : Family.of c with _ | _ | _ | _ | _ | _ | _
    all_goals simp only [hfamily] at h hc
    all_goals try cases h
    · obtain rfl := hc
      exact not_matched_comment h hstarts
    · exact not_matched_symbol hfamily (Option.map_eq_none_iff.1 h) hstarts

/-- The segments of a script are its pieces. -/
theorem cuts_split (cs : List Char) : Cuts cs ((split cs).1.map piece) (split cs).2 := by
  fun_induction split cs with
  | case1 cs hnext => exact .stop fun w => not_matched_of_next hnext
  | case2 cs seg rest hnext segs tail hrest ih =>
    obtain ⟨hlongest, hwins⟩ := longest_of_next hnext
    obtain ⟨rfl, -⟩ := next_append hnext
    rw [hrest] at ih
    exact .piece hlongest hwins ih

end Segment

end TableScript
