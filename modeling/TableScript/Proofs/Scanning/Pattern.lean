import Mathlib.Computability.Language
import Mathlib.Data.Char
import TableScript.Token.Segment

/-!
# The patterns of a script

What the pieces of a script look like, as regular languages.  `Pattern.language` is the table of
them; it is written with sets of characters, concatenation, union and repetition only, and does not
mention the scanner.

For proofs, `Pattern.Shape` says the same from the first character on (`mem_language_iff`).  The
first character decides the family of the pattern (`Shape.family`): within a family there is a
choice only between words, where a keyword or a truth value is also a name, and between symbols.
-/

namespace TableScript

open Computability

/-- What a piece of a script can be. -/
inductive Pattern where
  | number
  | truth (value : Bool)
  | keyword (word : Keyword)
  | name
  | text
  | comment
  | symbol (mark : Symbol)
  | newline
  | blank

/-- The texts of one character out of a set. -/
def oneOf (s : Set Char) : Language Char := {w | ∃ c ∈ s, w = [c]}

/-- The digits. -/
def digitSet : Set Char := Set.Icc '0' '9'

/-- Letters and the underscore. -/
def letterSet : Set Char := Set.Icc 'a' 'z' ∪ Set.Icc 'A' 'Z' ∪ {'_'}

/-- One digit or more. -/
def digitRun : Language Char := oneOf digitSet * (oneOf digitSet)∗

namespace Pattern

/-- The texts that a pattern matches. -/
def language : Pattern → Language Char
  | .number => digitRun * ({['.']} * (oneOf digitSet)∗)∗
  | .truth b => {(boolText b).toList}
  | .keyword w => {w.text.toList}
  | .name => oneOf letterSet * (oneOf (letterSet ∪ digitSet))∗
  | .text => {['\"']} * ((oneOf {'\"', '\n'}ᶜ)∗ * (1 + {['\"']}))
  | .comment => {['#']} * ((oneOf {'#', '\n'}ᶜ)∗ * {['#']})
  | .symbol m => {m.text.toList}
  | .newline => {['\n']}
  | .blank => oneOf {' ', '\t', '\r', '\x0c'} * (oneOf {' ', '\t', '\r', '\x0c'})∗

/-- Numbers that mean something: digits, and a fraction at most. -/
def decimal : Language Char := digitRun * (1 + {['.']} * digitRun)

/-- Strings that are closed. -/
def quoted : Language Char := {['\"']} * ((oneOf {'\"', '\n'}ᶜ)∗ * {['\"']})

end Pattern

/-! ### Membership -/

section

variable {s : Set Char} {l : Language Char} {w : List Char} {c : Char}

theorem mem_singleton {v : List Char} : w ∈ ({v} : Language Char) ↔ w = v := Iff.rfl

theorem mem_oneOf_mul : w ∈ oneOf s * l ↔ ∃ c cs, w = c :: cs ∧ c ∈ s ∧ cs ∈ l := by
  rw [Language.mem_mul]
  constructor
  · rintro ⟨_, ⟨c, hc, rfl⟩, cs, hcs, rfl⟩
    exact ⟨c, cs, rfl, hc, hcs⟩
  · rintro ⟨c, cs, rfl, hc, hcs⟩
    exact ⟨[c], ⟨c, hc, rfl⟩, cs, hcs, rfl⟩

theorem mem_char_mul : w ∈ ({[c]} : Language Char) * l ↔ ∃ cs, w = c :: cs ∧ cs ∈ l := by
  rw [Language.mem_mul]
  constructor
  · rintro ⟨_, rfl, cs, hcs, rfl⟩
    exact ⟨cs, rfl, hcs⟩
  · rintro ⟨cs, rfl, hcs⟩
    exact ⟨[c], rfl, cs, hcs, rfl⟩

theorem mem_oneOf_kstar : w ∈ (oneOf s)∗ ↔ ∀ c ∈ w, c ∈ s := by
  rw [Language.mem_kstar]
  constructor
  · rintro ⟨ws, rfl, hws⟩ c hc
    obtain ⟨v, hv, hcv⟩ := List.mem_flatten.1 hc
    obtain ⟨d, hd, rfl⟩ := hws v hv
    rwa [List.mem_singleton.1 hcv]
  · intro h
    refine ⟨w.map fun c => [c], by rw [← List.flatMap_def, List.flatMap_singleton'], ?_⟩
    intro v hv
    obtain ⟨c, hc, rfl⟩ := List.mem_map.1 hv
    exact ⟨c, h c hc, rfl⟩

theorem mem_digitRun : w ∈ digitRun ↔ w ≠ [] ∧ ∀ c ∈ w, c ∈ digitSet := by
  rw [digitRun, mem_oneOf_mul]
  constructor
  · rintro ⟨c, cs, rfl, hc, hcs⟩
    exact ⟨by simp, List.forall_mem_cons.2 ⟨hc, mem_oneOf_kstar.1 hcs⟩⟩
  · rintro ⟨hne, hall⟩
    obtain ⟨c, cs, rfl⟩ := List.exists_cons_of_ne_nil hne
    obtain ⟨hc, hcs⟩ := List.forall_mem_cons.1 hall
    exact ⟨c, cs, rfl, hc, mem_oneOf_kstar.2 hcs⟩

end

/-! ### The sets as tests -/

namespace Segment

variable {c : Char}

theorem mem_digitSet : c ∈ digitSet ↔ c.isDigit = true := by
  simp [digitSet, Char.isDigit, Set.mem_Icc, Char.le_def]

theorem isUpper_iff : c.isUpper = true ↔ c ∈ Set.Icc 'A' 'Z' := decide_eq_true_iff

theorem isLower_iff : c.isLower = true ↔ c ∈ Set.Icc 'a' 'z' := by
  show (_ && _) = true ↔ _
  rw [Bool.and_eq_true, decide_eq_true_iff, decide_eq_true_iff]
  rfl

theorem mem_letterSet : c ∈ letterSet ↔ isWordStart c = true := by
  show (c ∈ Set.Icc 'a' 'z' ∨ c ∈ Set.Icc 'A' 'Z') ∨ c ∈ _ ↔
    ((c.isUpper || c.isLower) || c == '_') = true
  rw [Bool.or_eq_true, Bool.or_eq_true, isUpper_iff, isLower_iff, beq_iff_eq]
  exact or_congr or_comm Iff.rfl

theorem mem_letterSet_union_digitSet : c ∈ letterSet ∪ digitSet ↔ isWordChar c = true := by
  show c ∈ letterSet ∨ c ∈ digitSet ↔ ((c.isAlpha || c.isDigit) || c == '_') = true
  rw [mem_letterSet, mem_digitSet, isWordStart, Bool.or_eq_true, Bool.or_eq_true, Bool.or_eq_true]
  exact or_right_comm

theorem mem_textSet : c ∈ ({'\"', '\n'}ᶜ : Set Char) ↔ isTextChar c = true := by
  simp [isTextChar]

theorem mem_commentSet : c ∈ ({'#', '\n'}ᶜ : Set Char) ↔ isCommentChar c = true := by
  simp [isCommentChar]

theorem mem_blankSet : c ∈ ({' ', '\t', '\r', '\x0c'} : Set Char) ↔ isBlank c = true := by
  simp [isBlank, or_assoc]

theorem isWordStart_of_isDigit (h : c.isDigit = true) : isWordStart c = false := by
  rw [← Bool.not_eq_true, ← mem_letterSet]
  obtain ⟨-, hle⟩ := mem_digitSet.2 h
  rintro ((⟨hge, -⟩ | ⟨hge, -⟩) | rfl)
  · exact absurd (hge.trans hle) (by decide)
  · exact absurd (hge.trans hle) (by decide)
  · exact absurd h (by decide)

end Segment

/-! ### Shapes -/

namespace Pattern

open Segment

variable {p : Pattern} {w cs : List Char} {c : Char}

/-- How the texts of a pattern go on after their first character. -/
def Shape : Pattern → Char → List Char → Prop
  | .number, c, cs => c.isDigit = true ∧ ∀ x ∈ cs, isNumberChar x = true
  | .truth b, c, cs => c :: cs = (boolText b).toList
  | .keyword w, c, cs => c :: cs = w.text.toList
  | .name, c, cs => isWordStart c = true ∧ ∀ x ∈ cs, isWordChar x = true
  | .text, c, cs => c = '\"' ∧ ∃ ts, (∀ x ∈ ts, isTextChar x = true) ∧
      (cs = ts ∨ cs = ts ++ ['\"'])
  | .comment, c, cs => c = '#' ∧ ∃ ts, (∀ x ∈ ts, isCommentChar x = true) ∧ cs = ts ++ ['#']
  | .symbol m, c, cs => c :: cs = m.text.toList
  | .newline, c, cs => c = '\n' ∧ cs = []
  | .blank, c, cs => isBlank c = true ∧ ∀ x ∈ cs, isBlank x = true

/-- Digits and points in any order are digits, then groups of a point and digits. -/
theorem mem_kstar_mul_kstar (h : ∀ x ∈ cs, isNumberChar x = true) :
    cs ∈ (oneOf digitSet)∗ * ({['.']} * (oneOf digitSet)∗)∗ := by
  induction cs with
  | nil => exact Language.mem_mul.2 ⟨[], Language.nil_mem_kstar _, [], Language.nil_mem_kstar _, rfl⟩
  | cons x xs ih =>
    obtain ⟨hx, hxs⟩ := List.forall_mem_cons.1 h
    obtain ⟨ds, hds, rest, hrest, rfl⟩ := Language.mem_mul.1 (ih hxs)
    rw [Language.mem_mul]
    by_cases hdigit : x.isDigit = true
    · refine ⟨x :: ds, ?_, rest, hrest, rfl⟩
      rw [mem_oneOf_kstar] at hds ⊢
      exact List.forall_mem_cons.2 ⟨mem_digitSet.2 hdigit, hds⟩
    · obtain rfl : x = '.' := by simpa [isNumberChar, hdigit] using hx
      refine ⟨[], Language.nil_mem_kstar _, '.' :: ds ++ rest, ?_, rfl⟩
      have hgroup : '.' :: ds ∈ ({['.']} : Language Char) * (oneOf digitSet)∗ :=
        mem_char_mul.2 ⟨ds, rfl, hds⟩
      obtain ⟨groups, rfl, hgroups⟩ := Language.mem_kstar.1 hrest
      exact Language.mem_kstar.2 ⟨_ :: groups, rfl, List.forall_mem_cons.2 ⟨hgroup, hgroups⟩⟩

theorem mem_number : w ∈ language .number ↔ ∃ c cs, w = c :: cs ∧ Shape .number c cs := by
  rw [language, digitRun, mul_assoc, mem_oneOf_mul]
  constructor
  · rintro ⟨c, cs, rfl, hc, hcs⟩
    refine ⟨c, cs, rfl, mem_digitSet.1 hc, ?_⟩
    obtain ⟨ds, hds, rest, hrest, rfl⟩ := Language.mem_mul.1 hcs
    have hdigit : ∀ x ∈ digitSet, isNumberChar x = true := by
      intro x hx
      simp [isNumberChar, mem_digitSet.1 hx]
    intro x hx
    rcases List.mem_append.1 hx with hx | hx
    · exact hdigit x (mem_oneOf_kstar.1 hds x hx)
    · obtain ⟨groups, rfl, hgroups⟩ := Language.mem_kstar.1 hrest
      obtain ⟨group, hgroup, hx⟩ := List.mem_flatten.1 hx
      obtain ⟨es, rfl, hes⟩ := mem_char_mul.1 (hgroups group hgroup)
      rcases List.mem_cons.1 hx with rfl | hx
      · rfl
      · exact hdigit x (mem_oneOf_kstar.1 hes x hx)
  · rintro ⟨c, cs, rfl, hc, hcs⟩
    exact ⟨c, cs, rfl, mem_digitSet.2 hc, mem_kstar_mul_kstar hcs⟩

/-- A text of one character of a set, then characters of another. -/
theorem mem_oneOf_mul_kstar {s t : Set Char} {f g : Char → Bool}
    (hs : ∀ {x}, x ∈ s ↔ f x = true) (ht : ∀ {x}, x ∈ t ↔ g x = true) :
    w ∈ oneOf s * (oneOf t)∗ ↔
      ∃ c cs, w = c :: cs ∧ f c = true ∧ ∀ x ∈ cs, g x = true := by
  simp only [mem_oneOf_mul, mem_oneOf_kstar, hs, ht]

/-- Characters of a set and then a text of another language. -/
theorem mem_kstar_mul {s : Set Char} {f : Char → Bool} {l : Language Char}
    (hs : ∀ {x}, x ∈ s ↔ f x = true) :
    w ∈ (oneOf s)∗ * l ↔ ∃ ts, (∀ x ∈ ts, f x = true) ∧ ∃ us ∈ l, ts ++ us = w := by
  simp only [Language.mem_mul, mem_oneOf_kstar, hs]

theorem mem_quoted :
    w ∈ quoted ↔ ∃ ts, (∀ x ∈ ts, isTextChar x = true) ∧ w = '\"' :: (ts ++ ['\"']) := by
  rw [quoted, mem_char_mul]
  constructor
  · rintro ⟨_, rfl, h⟩
    obtain ⟨ts, hts, _, rfl, rfl⟩ := (mem_kstar_mul mem_textSet).1 h
    exact ⟨ts, hts, rfl⟩
  · rintro ⟨ts, hts, rfl⟩
    exact ⟨_, rfl, (mem_kstar_mul mem_textSet).2 ⟨ts, hts, _, rfl, rfl⟩⟩

theorem mem_text : w ∈ language .text ↔ ∃ c cs, w = c :: cs ∧ Shape .text c cs := by
  rw [language, mem_char_mul]
  constructor
  · rintro ⟨cs, rfl, h⟩
    obtain ⟨ts, hts, us, hus, rfl⟩ := (mem_kstar_mul mem_textSet).1 h
    refine ⟨_, _, rfl, rfl, ts, hts, ?_⟩
    rcases (Language.mem_add _ _ _).1 hus with rfl | rfl
    · exact .inl (List.append_nil ts)
    · exact .inr rfl
  · rintro ⟨_, cs, rfl, rfl, ts, hts, rfl | rfl⟩
    · refine ⟨_, rfl, (mem_kstar_mul mem_textSet).2 ⟨_, hts, [], ?_, List.append_nil _⟩⟩
      exact (Language.mem_add _ _ _).2 (.inl rfl)
    · refine ⟨_, rfl, (mem_kstar_mul mem_textSet).2 ⟨ts, hts, _, ?_, rfl⟩⟩
      exact (Language.mem_add _ _ _).2 (.inr rfl)

theorem mem_comment : w ∈ language .comment ↔ ∃ c cs, w = c :: cs ∧ Shape .comment c cs := by
  rw [language, mem_char_mul]
  constructor
  · rintro ⟨cs, rfl, h⟩
    obtain ⟨ts, hts, _, rfl, rfl⟩ := (mem_kstar_mul mem_commentSet).1 h
    exact ⟨_, _, rfl, rfl, ts, hts, rfl⟩
  · rintro ⟨_, _, rfl, rfl, ts, hts, rfl⟩
    exact ⟨_, rfl, (mem_kstar_mul mem_commentSet).2 ⟨ts, hts, _, rfl, rfl⟩⟩

/-- A text that is spelled out, cut behind its first character. -/
theorem eq_iff_exists_cons {v : List Char} (hv : v ≠ []) :
    w = v ↔ ∃ c cs, w = c :: cs ∧ c :: cs = v := by
  constructor
  · rintro rfl
    obtain ⟨c, cs, rfl⟩ := List.exists_cons_of_ne_nil hv
    exact ⟨c, cs, rfl, rfl⟩
  · rintro ⟨c, cs, rfl, rfl⟩
    rfl

/-- Shapes are the languages, seen from the first character on. -/
theorem mem_language_iff : w ∈ p.language ↔ ∃ c cs, w = c :: cs ∧ p.Shape c cs := by
  cases p with
  | number => exact mem_number
  | truth b => exact eq_iff_exists_cons (by cases b <;> decide)
  | keyword k => exact eq_iff_exists_cons (by cases k <;> decide)
  | name => exact mem_oneOf_mul_kstar mem_letterSet mem_letterSet_union_digitSet
  | text => exact mem_text
  | comment => exact mem_comment
  | symbol m => exact eq_iff_exists_cons (by cases m <;> decide)
  | newline =>
    constructor
    · rintro rfl
      exact ⟨_, _, rfl, rfl, rfl⟩
    · rintro ⟨_, _, rfl, rfl, rfl⟩
      rfl
  | blank => exact mem_oneOf_mul_kstar mem_blankSet mem_blankSet

/-! ### Families -/

/-- Patterns that share their first characters. -/
inductive Family where
  | number | word | blank | newline | text | comment | symbol

/-- The family of the patterns that start with a character; symbols are what is left. -/
def Family.of (c : Char) : Family :=
  if c.isDigit then .number
  else if isWordStart c then .word
  else if isBlank c then .blank
  else if c = '\n' then .newline
  else if c = '\"' then .text
  else if c = '#' then .comment
  else .symbol

/-- The family of a pattern. -/
def family : Pattern → Family
  | .number => .number
  | .truth _ | .keyword _ | .name => .word
  | .text => .text
  | .comment => .comment
  | .symbol _ => .symbol
  | .newline => .newline
  | .blank => .blank

/-- The characters that a family starts with; nothing is said about symbols. -/
def Family.Starts : Family → Char → Prop
  | .number, c => c.isDigit = true
  | .word, c => isWordStart c = true
  | .blank, c => isBlank c = true
  | .newline, c => c = '\n'
  | .text, c => c = '\"'
  | .comment, c => c = '#'
  | .symbol, _ => True

theorem Family.starts_of (c : Char) : (Family.of c).Starts c := by
  unfold Family.of
  split_ifs <;> first | assumption | trivial

theorem family_of_isWordStart (h : isWordStart c = true) : Family.of c = .word := by
  have hdigit : c.isDigit ≠ true := by
    intro hdigit
    rw [isWordStart_of_isDigit hdigit] at h
    cases h
  rw [Family.of, if_neg hdigit, if_pos h]

theorem family_of_isBlank (h : isBlank c = true) : Family.of c = .blank := by
  simp only [isBlank, Bool.or_eq_true, beq_iff_eq] at h
  rcases h with ((rfl | rfl) | rfl) | rfl <;> rfl

/-- A keyword or a truth value is spelled like a name. -/
theorem Shape.name_of_word (h : p.Shape c cs) (hp : p.family = .word) :
    Shape .name c cs := by
  cases p with
  | truth b =>
    cases b
    all_goals
      obtain ⟨rfl, rfl⟩ := List.cons.inj h
      exact ⟨by decide, List.all_eq_true.1 (by decide)⟩
  | keyword w =>
    cases w
    all_goals
      obtain ⟨rfl, rfl⟩ := List.cons.inj h
      exact ⟨by decide, List.all_eq_true.1 (by decide)⟩
  | name => exact h
  | _ => cases hp

/-- The first character tells the family. -/
theorem Shape.family (h : p.Shape c cs) : Family.of c = p.family := by
  cases p with
  | number => exact if_pos h.1
  | truth b => exact family_of_isWordStart (h.name_of_word rfl).1
  | keyword w => exact family_of_isWordStart (h.name_of_word rfl).1
  | name => exact family_of_isWordStart h.1
  | text =>
    obtain ⟨rfl, -⟩ := h
    rfl
  | comment =>
    obtain ⟨rfl, -⟩ := h
    rfl
  | symbol m =>
    cases m
    all_goals
      obtain ⟨rfl, rfl⟩ := List.cons.inj h
      rfl
  | newline =>
    obtain ⟨rfl, -⟩ := h
    rfl
  | blank => exact family_of_isBlank h.1

end Pattern

end TableScript
