import TableScript.Proofs.Parsing.Completeness
import TableScript.Proofs.Program.Sketch
import TableScript.Proofs.Reading.Equation
import TableScript.Proofs.Scanning.Layout

/-!
# Writing and reading back

Every program without imports can be written, and is then read back as it was (`ofSource_render`).

A space stops every lexeme, so the text of a sketch is scanned to the tokens of its lexemes, all of them
on the first line (`scan_intercalate`).  Of these the parser makes the tree of the sketch.  The induction
is over the sketch, with one case for each rule of the grammar that its text uses; the levels of nesting
are counted exactly, so no more of them are needed than the text takes (`reads_statements`).
-/

namespace TableScript

open Segment

/-! ### Scanning lexemes -/

namespace Lexeme

variable {limit : Nat}

/-- The pattern that a lexeme matches. -/
def kind : Lexeme → SegmentKind
  | .symbol m => .symbol m
  | .keyword _ | .bool _ | .name _ => .word
  | .number _ => .number
  | .text _ => .text

/-- The segment that a lexeme is. -/
def segment (l : Lexeme) : Segment := ⟨l.kind, l.spelling.toList⟩

theorem toList_spelling_number (x : Numeral) : (Lexeme.number x).spelling.toList = x.digits :=
  String.toList_ofList

theorem toList_spelling_text (s : Quotable) :
    (Lexeme.text s).spelling.toList = '\"' :: (s.text.toList ++ ['\"']) := by simp [spelling]

/-- A text that is a run of one class. -/
theorem next_run {kind : SegmentKind} {p : Char → Bool} {c : Char} {cs : List Char}
    (hfirst : next (c :: cs) = some (run kind p c cs)) (hcs : ∀ x ∈ cs, p x = true) :
    next (c :: cs) = some (⟨kind, c :: cs⟩, []) := by
  obtain ⟨htake, hdrop⟩ := takeWhile_append_of_head (x := []) hcs (fun _ h => nomatch h)
  rw [List.append_nil] at htake hdrop
  rw [hfirst, run, htake, hdrop]

theorem next_word {w : List Char} (h : w ∈ Pattern.language .name) :
    next w = some (⟨.word, w⟩, []) := by
  obtain ⟨c, cs, rfl, hc, hcs⟩ := Pattern.mem_language_iff.1 h
  exact next_run (by rw [next_cons, Pattern.family_of_isWordStart hc]) hcs

open Computability in
/-- What is spelled as a number matches the pattern of numbers. -/
theorem mem_number_of_mem_decimal {w : List Char} (h : w ∈ Pattern.decimal) :
    w ∈ Pattern.language .number := by
  have hrun : digitRun ≤ (oneOf digitSet)∗ := mul_kstar_le_kstar
  have hle : Pattern.decimal ≤ Pattern.language .number := by
    refine mul_le_mul_right (sup_le one_le_kstar ?_) _
    exact (mul_le_mul_right hrun _).trans le_kstar
  exact hle h

theorem next_digits {w : List Char} (h : w ∈ Pattern.decimal) :
    next w = some (⟨.number, w⟩, []) := by
  obtain ⟨c, cs, rfl, hc, hcs⟩ := Pattern.mem_language_iff.1 (mem_number_of_mem_decimal h)
  exact next_run (by rw [next, if_pos hc]) hcs

theorem next_spelling (l : Lexeme) : next l.spelling.toList = some (l.segment, []) := by
  cases l with
  | symbol m => cases m <;> rfl
  | keyword w => cases w <;> rfl
  | bool b => cases b <;> rfl
  | number x =>
    rw [segment, toList_spelling_number]
    exact next_digits x.isDecimal
  | name x => exact next_word x.isIdentifier.isWord
  | text s =>
    have hplain : ∀ c ∈ s.text.toList, isTextChar c = true := by
      intro c hc
      simpa [isTextChar] using s.isQuotable c hc
    rw [segment, toList_spelling_text]
    exact next_quoted hplain []

/-- A lexeme is its token, if it is not too long. -/
theorem token?_segment (l : Lexeme) (h : l.spelling.length ≤ limit) :
    l.segment.token? limit = .ok (some l.token) := by
  have hlimited (t : Token) : limited limit l.spelling.toList t = .ok (some t) := by
    rw [limited, if_neg (by rw [String.length_toList]; omega)]
  cases l with
  | symbol m => exact hlimited _
  | keyword w =>
    refine (hlimited _).trans ?_
    cases w <;> rfl
  | bool b =>
    refine (hlimited _).trans ?_
    cases b <;> rfl
  | number x =>
    have hvalue : Number.ofLexeme? x.digits = some x.value := by
      rcases ofLexeme?_cases (mem_number_of_mem_decimal x.isDecimal) with ⟨-, hvalue⟩ | ⟨hnot, -⟩
      · exact hvalue
      · exact absurd x.isDecimal hnot
    rw [toList_spelling_number] at hlimited
    simp only [segment, kind, toList_spelling_number, Segment.token?, hvalue]
    exact hlimited _
  | name x =>
    -- a word is a name if it is not reserved
    have hword : Token.ofWord x.text = .name x.text := by
      rcases ofWord_cases x.text with ⟨b, hb, -⟩ | ⟨w, hw, -⟩ | ⟨hname, -, -⟩
      · exact absurd hb (x.isIdentifier.notTruth b)
      · exact absurd hw (x.isIdentifier.notKeyword w)
      · exact hname
    refine (hlimited _).trans ?_
    show Except.ok (some (Token.ofWord (String.ofList x.text.toList))) = _
    rw [String.ofList_toList, hword]
    rfl
  | text s =>
    rw [toList_spelling_text] at hlimited
    simp only [segment, kind, toList_spelling_text, Segment.token?, unquote?_quoted, String.ofList_toList]
    exact hlimited _

/-- A space is no part of a lexeme. -/
theorem goesOn_space (l : Lexeme) : l.segment.goesOn ' ' = false := by
  cases l with
  | symbol m => cases m <;> rfl
  | keyword | bool | number | name => rfl
  | text s =>
    simp only [segment, kind, goesOn, toList_spelling_text, unquote?_quoted]
    rfl

theorem lineAfter_segment (l : Lexeme) (line : Nat) : l.segment.lineAfter line = line := by
  cases l <;> rfl

/-- The token of a lexeme on the first line. -/
def onFirst (l : Lexeme) : Located := ⟨l.token, 1⟩

end Lexeme

/-- The tokens of lexemes, all of them on the first line. -/
def written (ls : List Lexeme) : List Located := ls.map Lexeme.onFirst

/-- One lexeme is scanned to its token, at the end of the text or before a space. -/
theorem Token.scanFrom_lexeme {limit line : Nat} {rest : List Char} (l : Lexeme)
    (hl : l.spelling.length ≤ limit) (hrest : ∀ c ∈ rest.head?, c = ' ') :
    scanFrom limit line (l.spelling.toList ++ rest) =
      (scanFrom limit line rest).map (⟨l.token, line⟩ :: ·) := by
  have hstops : l.segment.Stops rest := by
    intro c hc
    rw [hrest c hc]
    exact l.goesOn_space
  have hnext : next (l.spelling.toList ++ rest) = some (l.segment, rest) :=
    next_append_of_stops l.next_spelling hstops
  rw [scanFrom_of_token hnext (l.token?_segment hl), l.lineAfter_segment]
  rfl

/-- Lexemes with spaces between them are scanned to their tokens. -/
theorem Token.scan_intercalate {limit : Nat} {ls : List Lexeme}
    (h : ∀ l ∈ ls, l.spelling.length ≤ limit) :
    scan limit (" ".intercalate (ls.map Lexeme.spelling)) =
      .ok (written ls ++ [⟨.endOfInput, 1⟩]) := by
  rw [scan_eq_scanFrom, String.toList_intercalate, List.map_map]
  induction ls with
  | nil => exact scanFrom_nil limit 1
  | cons l ls ih =>
    obtain ⟨hl, hls⟩ := List.forall_mem_cons.1 h
    cases ls with
    | nil =>
      have hlast : scanFrom limit 1 (l.spelling.toList ++ []) = _ :=
        scanFrom_lexeme l hl fun _ h => nomatch h
      rw [List.append_nil, scanFrom_nil] at hlast
      rw [List.map_cons, List.map_nil, List.intercalate_singleton]
      exact hlast
    | cons l' ls =>
      -- the space stops the lexeme before it, and is layout before the next one
      have hspace : Layout " ".toList := .blank rfl .nil
      have hcount : " ".toList.count '\n' = 0 := rfl
      rw [List.map_cons, List.map_cons, List.intercalate_cons_cons, List.append_assoc, ← List.map_cons]
      refine (scanFrom_lexeme l hl (by rintro _ ⟨⟩; rfl)).trans ?_
      rw [scanFrom_layout hspace, hcount, Nat.add_zero, ih hls]
      rfl

/-! ### Parsing lexemes -/

@[simp] theorem written_cons (l : Lexeme) (ls : List Lexeme) :
    written (l :: ls) = ⟨l.token, 1⟩ :: written ls := rfl

@[simp] theorem written_append (ls ls' : List Lexeme) :
    written (ls ++ ls') = written ls ++ written ls' := List.map_append

@[simp] theorem written_nil : written [] = [] := rfl

namespace Sketch

open TableScript.Parser

variable {st : Setting} {n x : Nat}

/-- A keyword with something in parentheses behind it. -/
theorem written_keyword_inParens (w : Keyword) (ls ls' : List Lexeme) :
    written (.keyword w :: (inParens ls ++ ls')) =
      w.at 1 :: Symbol.leftParen.at 1 :: (written ls ++ Symbol.rightParen.at 1 :: written ls') := by
  simp [inParens, enclosed, Lexeme.token]

/-- An expression starts on the first line. -/
theorem written_lexemes_eq_cons (e : Expr) : ∃ t ts, written e.lexemes = ⟨t, 1⟩ :: ts := by
  cases e <;> exact ⟨_, _, rfl⟩

theorem startsPrimary_lexemes (e : Expr) : Category.primary.startsWith (written e.lexemes) = true := by
  cases e <;> rfl

theorem startsExpression_lexemes (e : Expr) :
    (Category.several .expression).startsWith (written e.lexemes) = true :=
  Category.startsWith_mono (k := .primary) rfl (fun _ => Token.startsExpression_of_startsPrimary)
    (startsPrimary_lexemes e)

theorem startsStatement_lexemes (s : Stmt) :
    Category.statement.startsWith (written s.lexemes) = true := by
  have hexpr (e : Expr) : Category.statement.startsWith (written e.lexemes) = true :=
    Category.startsWith_mono (k := .several .expression) rfl
      (fun _ => Token.startsStatement_of_startsExpression) (startsExpression_lexemes e)
  cases s with
  | assign how target value =>
    rw [Stmt.lexemes, written_append]
    exact Category.startsWith_append rfl (hexpr target)
  | cond e yes no => cases no <;> rfl
  | expr e => exact hexpr e
  | _ => rfl

section Rules

variable {ls ls' : List Lexeme} {e e' : TableScript.Expr} {ss : List TableScript.Stmt}

/-- An operand by itself is a sum. -/
theorem reads_sum_of_primary (hfirst : Category.primary.startsWith (written ls) = true)
    (h : Reads st n .primary (written ls) e) : Reads st n .sum (written ls) e :=
  reads_summand (reads_factor (reads_unsigned hfirst (reads_bare h)))

/-- An operand by itself is an expression, which takes a level. -/
theorem reads_expression (hfirst : Category.primary.startsWith (written ls) = true) (hn : x + 1 ≤ n)
    (h : ∀ m, x ≤ m → Reads st m .primary (written ls) e) :
    Reads st n (.item .expression) (written ls) e := by
  obtain ⟨m, rfl⟩ : ∃ m, n = m + 1 := ⟨n - 1, by omega⟩
  exact reads_single (reads_sum_of_primary hfirst (h m (by omega)))

/-- An expression in parentheses is an operand, which takes a level. -/
theorem reads_inParens (hn : x + 1 ≤ n)
    (h : ∀ m, x ≤ m → Reads st (m + 1) (.item .expression) (written ls) e) :
    Reads st n .primary (written (inParens ls)) e := by
  obtain ⟨m, rfl⟩ : ∃ m, n = m + 1 := ⟨n - 1, by omega⟩
  have hwritten : written (inParens ls) =
      Symbol.leftParen.at 1 :: (written ls ++ [Symbol.rightParen.at 1]) := by
    simp [inParens, enclosed, Lexeme.token]
  rw [hwritten]
  exact reads_paren 1 1 (h m (by omega))

/-- Statements in braces are a block, which takes a level. -/
theorem reads_inBraces (hn : x + 1 ≤ n) (h : ∀ m, x ≤ m → Reads st m .statements (written ls) ss) :
    Reads st n .block (written (inBraces ls)) (.mk 1 ss) := by
  obtain ⟨m, rfl⟩ : ∃ m, n = m + 1 := ⟨n - 1, by omega⟩
  have hwritten : written (inBraces ls) =
      Symbol.leftBrace.at 1 :: (written ls ++ [Symbol.rightBrace.at 1]) := by
    simp [inBraces, enclosed, Lexeme.token]
  rw [hwritten]
  exact reads_block 1 1 (h m (by omega))

/-- Operands with an operator between them. -/
theorem reads_operation (op : ArithOp) (hfirst : Category.primary.startsWith (written ls) = true)
    (hfirst' : Category.primary.startsWith (written ls') = true)
    (h : Reads st n .primary (written ls) e) (h' : Reads st n .primary (written ls') e') :
    Reads st n .sum (written (ls ++ .symbol op.mark :: ls')) (.arith 1 op e e') := by
  have hwritten : written (ls ++ .symbol op.mark :: ls') =
      written ls ++ op.mark.at 1 :: written ls' := written_append _ _
  have hleft := reads_factor (reads_unsigned hfirst (reads_bare h))
  have hright := reads_unsigned hfirst' (reads_bare h')
  rw [hwritten]
  cases op with
  | add => exact reads_plus 1 .plus .add rfl (.inl rfl) (reads_summand hleft) (reads_factor hright)
  | sub => exact reads_plus 1 .minus .sub rfl (.inr rfl) (reads_summand hleft) (reads_factor hright)
  | mul => exact reads_summand (reads_times 1 .star .mul rfl (.inl rfl) hleft hright)
  | div => exact reads_summand (reads_times 1 .slash .div rfl (.inr rfl) hleft hright)

/-- What an item of a list has to satisfy. -/
def ReadsItem (st : Setting) (n : Nat) (k : Item) (ls : List Lexeme) (a : k.Tree) : Prop :=
  Reads st n (.item k) (written ls) a ∧ (Category.several k).startsWith (written ls) = true

/-- One item or more, which start as the first of them does. -/
theorem reads_several {k : Item} {item : List Lexeme} {items : List (List Lexeme)} {a : k.Tree}
    {as : List k.Tree} (hitem : ReadsItem st n k item a)
    (hitems : List.Forall₂ (ReadsItem st n k) items as) :
    Reads st n (.several k) (written (separated (item :: items))) (a :: as) ∧
      (Category.several k).startsWith (written (separated (item :: items))) = true := by
  induction hitems generalizing item a with
  | nil =>
    rw [separated, List.intercalate_singleton]
    exact ⟨reads_one hitem.1, hitem.2⟩
  | @cons item' a' items as hitem' _ ih =>
    obtain ⟨hrest, hfirst⟩ := ih hitem'
    have hwritten : written (separated (item :: item' :: items)) =
        written item ++ Symbol.comma.at 1 :: written (separated (item' :: items)) := by
      simp [separated, List.intercalate_cons_cons, Lexeme.token]
    rw [hwritten]
    exact ⟨reads_more 1 hfirst hitem.1 hrest, Category.startsWith_append rfl hitem.2⟩

theorem reads_separated {k : Item} {items : List (List Lexeme)} {as : List k.Tree}
    (h : List.Forall₂ (ReadsItem st n k) items as) :
    Reads st n (.list k) (written (separated items)) as := by
  cases h with
  | nil => exact reads_noItems
  | cons hitem hitems =>
    obtain ⟨hseveral, hfirst⟩ := reads_several hitem hitems
    exact reads_items hfirst hseveral

section Operand

variable (hfirst : Category.primary.startsWith (written ls) = true)
  (h : Reads st n .primary (written ls) e)

include hfirst h

/-- A call of an operand. -/
theorem reads_callOf {items : List (List Lexeme)} {args : List TableScript.Expr}
    (hargs : List.Forall₂ (ReadsItem st n .expression) items args) :
    Reads st n .sum (written (ls ++ inParens (separated items))) (.call 1 e args) := by
  have hwritten : written (ls ++ inParens (separated items)) =
      written ls ++ Symbol.leftParen.at 1 ::
        (written (separated items) ++ [Symbol.rightParen.at 1]) := by
    simp [inParens, enclosed, Lexeme.token]
  have hcall := reads_call 1 1 (reads_bare h) (reads_separated hargs)
  rw [hwritten]
  exact reads_summand (reads_factor (reads_unsigned (Category.startsWith_append rfl hfirst) hcall))

/-- A place in an operand. -/
theorem reads_indexOf (hkey : Reads st n (.item .expression) (written ls') e') :
    Reads st n .sum (written (ls ++ inBrackets ls')) (.index 1 e e') := by
  have hwritten : written (ls ++ inBrackets ls') =
      written ls ++ Symbol.leftBracket.at 1 :: (written ls' ++ [Symbol.rightBracket.at 1]) := by
    simp [inBrackets, enclosed, Lexeme.token]
  have hindex := reads_index 1 1 (reads_bare h) hkey
  rw [hwritten]
  exact reads_summand (reads_factor (reads_unsigned (Category.startsWith_append rfl hfirst) hindex))

end Operand

theorem reads_tableLiteral {items : List (List Lexeme)}
    {entries : List (TableScript.Expr × TableScript.Expr)}
    (h : List.Forall₂ (ReadsItem st n .entry) items entries) :
    Reads st n .primary (written (inBrackets (separated items))) (.table 1 entries) := by
  have hwritten : written (inBrackets (separated items)) =
      Symbol.leftBracket.at 1 :: (written (separated items) ++ [Symbol.rightBracket.at 1]) := by
    simp [inBrackets, enclosed, Lexeme.token]
  rw [hwritten]
  exact reads_table 1 1 (reads_separated h)

/-- The names of parameters. -/
theorem readsItem_params (params : List Identifier) :
    List.Forall₂ (ReadsItem st n .name) (params.map fun x => [Lexeme.name x])
      (params.map Identifier.text) := by
  rw [List.forall₂_map_left_iff, List.forall₂_map_right_iff]
  exact List.forall₂_same.2 fun x _ => ⟨reads_name 1 x.text, rfl⟩

theorem reads_functionLiteral (hfile : st.file = none) (params : List Identifier) {body : Block}
    (h : Reads st n .block (written ls) body) :
    Reads st n .primary
      (written (.keyword .functionWord ::
        (inParens (separated (params.map fun x => [.name x])) ++ ls)))
      (.function 1 (.mk 0 1 none (params.map Identifier.text) body)) := by
  have hfunction := reads_function 1 1 1 (reads_separated (readsItem_params params)) h
  rw [hfile] at hfunction
  rw [written_keyword_inParens]
  exact hfunction

end Rules

/-! ### Sketches are read -/

mutual

theorem reads_operand (hfile : st.file = none) : ∀ (e : Expr) (n : Nat), e.nesting ≤ n →
    Reads st n .primary (written e.lexemes) e.tree
  | .number x, _, _ => reads_literal (t := ⟨.number x.value, 1⟩) rfl
  | .text s, _, _ => reads_literal (t := ⟨.text s.text, 1⟩) rfl
  | .bool b, _, _ => reads_literal (t := ⟨.bool b, 1⟩) rfl
  | .var x, _, _ => reads_literal (t := ⟨.name x.text, 1⟩) rfl
  | .function params body, n, hn => by
    refine reads_inParens hn fun m hm => reads_single (reads_sum_of_primary rfl ?_)
    exact reads_functionLiteral hfile params (reads_inBraces hm (reads_statements hfile body))
  | .unary op e, n, hn => by
    refine reads_inParens hn fun m hm => reads_single (reads_summand (reads_factor ?_))
    exact reads_sign 1 op.mark op op.text_mark (reads_bare (reads_operand hfile e m hm))
  | .arith op l r, n, hn => by
    refine reads_inParens hn fun m hm => reads_single ?_
    exact reads_operation op (startsPrimary_lexemes l) (startsPrimary_lexemes r)
      (reads_operand hfile l m (le_of_max_le_left hm)) (reads_operand hfile r m (le_of_max_le_right hm))
  | .compare op l r, n, hn => by
    -- a comparison is no sum, so it has to be the whole expression in the parentheses
    refine reads_inParens hn fun m hm => ?_
    rw [written_append]
    exact reads_compared 1 op.mark op op.text_mark
      (reads_sum_of_primary (startsPrimary_lexemes l) (reads_operand hfile l m (le_of_max_le_left hm)))
      (reads_sum_of_primary (startsPrimary_lexemes r) (reads_operand hfile r m (le_of_max_le_right hm)))
  | .call callee args, n, hn => by
    refine reads_inParens hn fun m hm => reads_single ?_
    exact reads_callOf (startsPrimary_lexemes callee)
      (reads_operand hfile callee m (le_of_max_le_left hm))
      (reads_args hfile args m (le_of_max_le_right hm))
  | .index base key, n, hn => by
    refine reads_inParens hn fun m hm => reads_single ?_
    exact reads_indexOf (startsPrimary_lexemes base) (reads_operand hfile base m (le_of_max_le_left hm))
      (reads_expression (startsPrimary_lexemes key) (le_of_max_le_right hm) (reads_operand hfile key))
  | .table entries, n, hn => by
    refine reads_inParens hn fun m hm => reads_single (reads_sum_of_primary rfl ?_)
    exact reads_tableLiteral (reads_entries hfile entries m hm)

theorem reads_args (hfile : st.file = none) : ∀ (es : List Expr) (n : Nat), nestingArgs es ≤ n →
    List.Forall₂ (ReadsItem st n .expression) (lexemesArgs es) (treeArgs es)
  | [], _, _ => .nil
  | e :: es, n, hn => by
    refine .cons ⟨?_, startsExpression_lexemes e⟩ (reads_args hfile es n (le_of_max_le_right hn))
    exact reads_expression (startsPrimary_lexemes e) (le_of_max_le_left hn) (reads_operand hfile e)

theorem reads_entries (hfile : st.file = none) : ∀ (es : List (Expr × Expr)) (n : Nat),
    nestingEntries es ≤ n → List.Forall₂ (ReadsItem st n .entry) (lexemesEntries es) (treeEntries es)
  | [], _, _ => .nil
  | (k, v) :: es, n, hn => by
    have hentry := le_of_max_le_left hn
    have hk := reads_expression (startsPrimary_lexemes k) (le_of_max_le_left hentry)
      (reads_operand hfile k)
    have hv := reads_expression (startsPrimary_lexemes v) (le_of_max_le_right hentry)
      (reads_operand hfile v)
    refine .cons ?_ (reads_entries hfile es n (le_of_max_le_right hn))
    rw [ReadsItem, written_append]
    exact ⟨reads_entry 1 hk hv, Category.startsWith_append rfl (startsExpression_lexemes k)⟩

theorem reads_statement (hfile : st.file = none) : ∀ (s : Stmt) (n : Nat), s.nesting ≤ n →
    Reads st n .statement (written s.lexemes) s.tree
  | .assign how target value, n, hn => by
    have htarget := reads_expression (startsPrimary_lexemes target) (le_of_max_le_left hn)
      (reads_operand hfile target)
    have hvalue := reads_expression (startsPrimary_lexemes value) (le_of_max_le_right hn)
      (reads_operand hfile value)
    have hfirst := startsExpression_lexemes target
    obtain ⟨t, ts, hts⟩ := written_lexemes_eq_cons target
    rw [hts] at htarget hfirst
    rw [Stmt.lexemes, written_append, hts]
    exact reads_assign 1 how hfirst htarget hvalue
  | .block body, n, hn =>
    reads_nested rfl (reads_inBraces hn (reads_statements hfile body))
  | .cond e yes none, n, hn => by
    rw [Stmt.lexemes, written_keyword_inParens]
    exact reads_cond 1 1 1
      (reads_expression (startsPrimary_lexemes e) (le_of_max_le_left hn) (reads_operand hfile e))
      (reads_inBraces (le_of_max_le_right hn) (reads_statements hfile yes))
  | .cond e yes (some no), n, hn => by
    have hblocks := le_of_max_le_right hn
    rw [Stmt.lexemes, written_keyword_inParens, written_append]
    exact reads_condElse 1 1 1 1
      (reads_expression (startsPrimary_lexemes e) (le_of_max_le_left hn) (reads_operand hfile e))
      (reads_inBraces (le_of_max_le_left hblocks) (reads_statements hfile yes))
      (reads_inBraces (le_of_max_le_right hblocks) (reads_statements hfile no))
  | .loop e body, n, hn => by
    rw [Stmt.lexemes, written_keyword_inParens]
    exact reads_loop 1 1 1
      (reads_expression (startsPrimary_lexemes e) (le_of_max_le_left hn) (reads_operand hfile e))
      (reads_inBraces (le_of_max_le_right hn) (reads_statements hfile body))
  | .ret e, n, hn =>
    reads_ret 1 (reads_expression (startsPrimary_lexemes e) hn (reads_operand hfile e))
  | .expr e, n, hn => by
    have he := reads_expression (startsPrimary_lexemes e) hn (reads_operand hfile e)
    have hfirst := startsExpression_lexemes e
    obtain ⟨t, ts, hts⟩ := written_lexemes_eq_cons e
    rw [hts] at he hfirst
    rw [Stmt.lexemes, hts]
    exact reads_expr hfirst he

theorem reads_statements (hfile : st.file = none) : ∀ (ss : List Stmt) (n : Nat), nestingAll ss ≤ n →
    Reads st n .statements (written (lexemesAll ss)) (treeAll ss)
  | [], _, _ => reads_empty
  | s :: ss, n, hn => by
    rw [lexemesAll, written_append]
    exact reads_followed 1 (startsStatement_lexemes s) (reads_statement hfile s n (le_of_max_le_left hn))
      (reads_statements hfile ss n (le_of_max_le_right hn))

end

/-- **What is written is read back.**  Every program on one line without imports has a sketch, if its
names, strings and numbers can be written.  The text of a sketch is read as its tree, if no lexeme is too
long and the text is not nested too deep. -/
theorem ofSource_render :
    (∀ p : Program, PlainAll p → ∃ s, treeAll s = p) ∧
      ∀ (s : List Stmt) (load : Loader) (limits : Limits),
        (∀ l ∈ lexemesAll s, l.spelling.length ≤ limits.lexeme) → nestingAll s ≤ limits.nesting →
          Program.ofSource load limits none (render s) = .ok (treeAll s) := by
  refine ⟨fun p => exists_sketch_all, fun s load limits hlexemes hnesting => ?_⟩
  have hreads : Reads (Program.setting load limits []) limits.nesting .statements _ _ :=
    reads_statements rfl s limits.nesting hnesting
  have htokens : Cursor.Moves _ (written (lexemesAll s)) ⟨⟨.endOfInput, 1⟩, []⟩ :=
    Cursor.tokens_ofList_of_end (written (lexemesAll s)) 1
  rw [Program.ofSource, Option.toList_none, Program.read_eq, render, Token.scan_intercalate hlexemes]
  show (program _ _).1 = _
  rw [program_of_reads hreads htokens rfl]

theorem isIdentifier_f : IsIdentifier "f" where
  isWord := Pattern.mem_language_iff.2 ⟨'f', [], rfl, rfl, nofun⟩
  notTruth b := by cases b <;> decide
  notKeyword w := by cases w <;> decide

/-- Three tenths, with a zero that the value does not show. -/
def threeTenths : Numeral where
  digits := "0.30".toList
  isDecimal := by
    have hrun {w : List Char} (hne : w ≠ []) (hw : w.all Char.isDigit = true) : w ∈ digitRun :=
      mem_digitRun.2 ⟨hne, fun c hc => mem_digitSet.2 (List.all_eq_true.1 hw c hc)⟩
    exact mem_decimal.2 (.inr ⟨['0'], ['3', '0'], hrun (by simp) rfl, hrun (by simp) rfl, rfl⟩)

/-- A function with a sign on a sign, in a table. -/
def signs : Expr :=
  .table [(.text ⟨"k", by decide⟩, .function [⟨"f", isIdentifier_f⟩]
    [.ret (.unary .minus (.unary .plus (.var ⟨"f", isIdentifier_f⟩)))])]

/-- A call of a call is compared with a comparison, and a call is assigned to. -/
def callOfCall : List Stmt :=
  [.cond (.compare .equal
      (.call (.call (.index signs (.text ⟨"k", by decide⟩)) [.number threeTenths]) [.bool true])
      (.compare .lessEqual (.var ⟨"f", isIdentifier_f⟩) (.bool false)))
    [.assign .reassign (.call (.var ⟨"f", isIdentifier_f⟩) []) (.text ⟨"#", by decide⟩)]
    (some [.block []])]

/-- The text is read under the smallest limits that it fits into. -/
theorem ofSource_render_callOfCall :
    (PlainAll [.expr 1 (.var 1 "f")] ∧ ∃ s, treeAll s = [.expr 1 (.var 1 "f")]) ∧
    render callOfCall =
      "If ( ( ( ( ( ( [ \"k\" : ( Function ( f ) \x7b Return ( - ( + f ) ) ; \x7d ) ] ) " ++
        "[ \"k\" ] ) ( 0.30 ) ) ( True ) ) == ( f <= False ) ) ) " ++
        "\x7b ( f ( ) ) =& \"#\" ; \x7d Else \x7b \x7b \x7d ; \x7d ;" ∧
    (∀ l ∈ lexemesAll callOfCall, l.spelling.length ≤ 8) ∧ nestingAll callOfCall = 12 ∧
    Program.ofSource (Loader.ofList []) { lexeme := 8, nesting := 12 } none (render callOfCall) =
      .ok (treeAll callOfCall) := by
  have hplain : PlainAll [.expr 1 (.var 1 "f")] := ⟨⟨rfl, rfl, isIdentifier_f⟩, trivial⟩
  have hlexemes : ∀ l ∈ lexemesAll callOfCall, l.spelling.length ≤ 8 := by decide
  have hnesting : nestingAll callOfCall = 12 := by decide
  obtain ⟨hsketch, hread⟩ := ofSource_render
  refine ⟨⟨hplain, hsketch _ hplain⟩, by decide +kernel, hlexemes, hnesting, ?_⟩
  exact hread callOfCall (Loader.ofList []) { lexeme := 8, nesting := 12 } hlexemes hnesting.le

end Sketch

end TableScript
