import TableScript.Proofs.Parsing.Acceptance
import TableScript.Proofs.Program.Nodes
import TableScript.Proofs.Reading.Resolution

/-!
# Where the code of a program was written

A program that was read from a text holds code of that text and of the texts that it imports.  The
place of a node says which: code of the text itself belongs to the file on top of the stack, and a
function literal notes that file, so that the body of a function belongs to the file that it was
written in.  Code of an import belongs to the file that is imported.

`writtenIn_of_read` puts this together: each node is on a line of the text of the file that it belongs
to, and each function literal notes the file that it stands in.  The proof is by induction on imports
(`read_induction`): a program that is imported was read as well, with one more name taken.
-/

namespace TableScript

/-- The lines of a text are numbered from one. -/
def IsLine (text : String) (line : Nat) : Prop := 1 ≤ line ∧ line ≤ 1 + text.toList.count '\n'

namespace Token

/-- A token is on the line that the line breaks before its piece say. -/
theorem exists_split_of_mem_located {before : List Char} {pieces : List Piece} {t : Located}
    (h : t ∈ located before pieces) :
    ∃ xs x ys, pieces = xs ++ x :: ys ∧
      t.line = 1 + (before ++ xs.flatMap Piece.chars).count '\n' := by
  induction pieces generalizing before with
  | nil => cases h
  | cons x xs ih =>
    rcases List.mem_append.1 h with hx | hxs
    · rcases htoken : x.token? with - | token
      · rw [htoken] at hx
        cases hx
      · rw [htoken] at hx
        obtain rfl := List.mem_singleton.1 hx
        exact ⟨[], x, xs, rfl, by rw [List.flatMap_nil, List.append_nil]⟩
    · obtain ⟨ys, y, zs, rfl, hline⟩ := ih hxs
      refine ⟨x :: ys, y, zs, rfl, ?_⟩
      rw [hline, List.flatMap_cons, List.append_assoc]

theorem line_of_mem_located {before : List Char} {pieces : List Piece} {t : Located}
    (h : t ∈ located before pieces) :
    1 ≤ t.line ∧ t.line ≤ 1 + (before ++ pieces.flatMap Piece.chars).count '\n' := by
  obtain ⟨xs, x, ys, rfl, hline⟩ := exists_split_of_mem_located h
  simp only [hline, List.flatMap_append, List.count_append]
  omega

/-- Tokens are on lines of the text that they were scanned from. -/
theorem isLine_of_mem_scan {limit : Nat} {source : String} {tokens : List Located} {t : Located}
    (h : scan limit source = .ok tokens) (ht : t ∈ tokens) : IsLine source t.line := by
  obtain ⟨htail, -, rfl⟩ := scan_eq_ok_iff.1 h
  rcases List.mem_append.1 ht with ht | ht
  · have hwhole := (Segment.cuts_split source.toList).append_eq
    rw [htail, List.append_nil] at hwhole
    have hline := line_of_mem_located ht
    rwa [List.nil_append, hwhole] at hline
  · obtain rfl := List.mem_singleton.1 ht
    exact ⟨Nat.le_add_right _ _, Nat.le_refl _⟩

end Token

/-! ### The nodes of what was derived -/

/-- The nodes in an item of a list. -/
def Item.nodes (place : Place) : (k : Item) → k.Tree → List Node
  | .name, _ => []
  | .expression, e => e.nodes place
  | .entry, (k, v) => k.nodes place ++ v.nodes place

/-- The nodes in the tree of a category.  A block is one by its brace. -/
def Category.nodes (place : Place) : (k : Category) → k.Tree → List Node
  | .primary, e | .postfixed, e | .signed, e | .product, e | .sum, e => Expr.nodes place e
  | .item k, a => k.nodes place a
  | .several k, as | .list k, as => as.flatMap (k.nodes place)
  | .block, .mk line stmts => { place, line } :: nodesAll place stmts
  | .statement, s => s.nodes place
  | .statements, ss => nodesAll place ss

theorem nodesArgs_eq (place : Place) (es : List Expr) :
    nodesArgs place es = es.flatMap (Item.nodes place .expression) := by
  induction es with
  | nil => rfl
  | cons e es ih => rw [nodesArgs, ih, List.flatMap_cons, Item.nodes]

theorem nodesEntries_eq (place : Place) (es : List (Expr × Expr)) :
    nodesEntries place es = es.flatMap (Item.nodes place .entry) := by
  induction es with
  | nil => rfl
  | cons e es ih =>
    obtain ⟨k, v⟩ := e
    rw [nodesEntries, ih, List.flatMap_cons, Item.nodes]

/-- A node of the text of `file` itself: it is on the line of a token, and a function literal notes the
file. -/
structure Node.Own (file : Option String) (ts : List Located) (n : Node) : Prop where
  place : n.place.file = file
  line : ∃ t ∈ ts, t.line = n.line
  noted : ∀ noted, n.form = .function noted → noted = file

/-- Nodes are of the text itself, or of the programs that it imports. -/
def Written (file : Option String) (ts : List Located) (gets : List Import) (ns : List Node) : Prop :=
  ∀ n ∈ ns, n.Own file ts ∨ ∃ i ∈ gets, n ∈ nodesAll ⟨some i.file, false⟩ i.program

namespace Written

variable {file : Option String} {ts ts' : List Located} {gets gets' : List Import} {ns ns' : List Node}

theorem mono (h : Written file ts gets ns) (hts : ts ⊆ ts') (hgets : gets ⊆ gets') :
    Written file ts' gets' ns := by
  intro n hn
  rcases h n hn with hown | ⟨i, hi, hin⟩
  · obtain ⟨t, ht, hline⟩ := hown.line
    exact .inl ⟨hown.place, ⟨t, hts ht, hline⟩, hown.noted⟩
  · exact .inr ⟨i, hgets hi, hin⟩

theorem append (h : Written file ts gets ns) (h' : Written file ts gets ns') :
    Written file ts gets (ns ++ ns') := List.forall_mem_append.2 ⟨h, h'⟩

theorem cons {place : Place} {t : Located} {form : Form} (hplace : place.file = file) (ht : t ∈ ts)
    (hform : ∀ noted, form = .function noted → noted = file) (h : Written file ts gets ns) :
    Written file ts gets ({ place, line := t.line, form } :: ns) :=
  List.forall_mem_cons.2 ⟨.inl ⟨hplace, ⟨t, ht, rfl⟩, hform⟩, h⟩

theorem nil : Written file ts gets [] := fun n hn => (by cases hn)

end Written

theorem Derives.written {file : Option String} {fetch : Nat → String → Except Error Program}
    {k : Category} {ts : List Located} {a : k.Tree} (h : Derives file fetch k ts a) :
    ∀ place : Place, place.file = file → Written file ts (k.gets a) (k.nodes place a) := by
  induction h with
  | number l x =>
    intro place hplace
    exact .cons (t := ⟨.number x, l⟩) hplace (by simp) (by rintro _ ⟨⟩) .nil
  | bool l b =>
    intro place hplace
    exact .cons (t := ⟨.bool b, l⟩) hplace (by simp) (by rintro _ ⟨⟩) .nil
  | text l s =>
    intro place hplace
    exact .cons (t := ⟨.text s, l⟩) hplace (by simp) (by rintro _ ⟨⟩) .nil
  | var l s =>
    intro place hplace
    exact .cons (t := ⟨.name s, l⟩) hplace (by simp) (by rintro _ ⟨⟩) .nil
  | @function ps bs params body l l₁ l₂ _ _ _ hbody =>
    obtain ⟨brace, stmts⟩ := body
    intro place hplace
    refine .cons (t := Keyword.functionWord.at l) hplace (by simp) (fun _ h => ?_) ?_
    · exact (Form.function.inj h).symm
    · -- the literal notes the file of the text, so its body is of that file too
      have hbody := (List.forall_mem_cons.1 (hbody ⟨file, true⟩ rfl)).2
      exact Written.mono hbody (fun t ht => by simp [ht]) (List.Subset.refl _)
  | @table ts entries l l₁ _ hentries =>
    intro place hplace
    show Written file _ (getsEntries entries) ({ place, line := l } :: nodesEntries place entries)
    rw [getsEntries_eq, nodesEntries_eq]
    refine .cons (t := Symbol.leftBracket.at l) hplace (by simp) (by rintro _ ⟨⟩) ?_
    exact (hentries place hplace).mono (fun t ht => by simp [ht]) (List.Subset.refl _)
  | paren l l₁ _ ih =>
    intro place hplace
    exact (ih place hplace).mono (fun t ht => by simp [ht]) (List.Subset.refl _)
  | bare _ ih | unsigned _ ih | factor _ ih | summand _ ih | single _ ih | items _ ih => exact ih
  | @call ts us e args l l₁ _ _ hcallee hargs =>
    intro place hplace
    show Written file _ (e.gets ++ getsArgs args)
      ({ place, line := l, form := .call } :: (e.nodes place ++ nodesArgs place args))
    rw [getsArgs_eq, nodesArgs_eq]
    refine .cons (t := Symbol.leftParen.at l) hplace (by simp) (by rintro _ ⟨⟩) (.append ?_ ?_)
    · exact (hcallee place hplace).mono (fun t ht => by simp [ht]) (by simp [Category.gets])
    · exact (hargs place hplace).mono (fun t ht => by simp [ht]) (by simp [Category.gets])
  | @index ts us e key l l₁ _ _ hbase hkey =>
    intro place hplace
    refine .cons (t := Symbol.leftBracket.at l) hplace (by simp) (by rintro _ ⟨⟩) (.append ?_ ?_)
    · exact (hbase place hplace).mono (fun t ht => by simp [ht]) (List.subset_append_left _ _)
    · exact (hkey place hplace).mono (fun t ht => by simp [ht]) (List.subset_append_right _ _)
  | sign l m op _ _ ih =>
    intro place hplace
    refine .cons (t := m.at l) hplace (by simp) (by rintro _ ⟨⟩) ?_
    exact (ih place hplace).mono (fun t ht => by simp [ht]) (List.Subset.refl _)
  | times l m op _ _ _ _ ih ih' | plus l m op _ _ _ _ ih ih' | compared l m op _ _ _ ih ih' =>
    intro place hplace
    refine .cons (t := m.at l) hplace (by simp) (by rintro _ ⟨⟩) (.append ?_ ?_)
    · exact (ih place hplace).mono (fun t ht => by simp [ht]) (List.subset_append_left _ _)
    · exact (ih' place hplace).mono (fun t ht => by simp [ht]) (List.subset_append_right _ _)
  | name | noItems | empty => exact fun _ _ => .nil
  | entry l _ _ ih ih' | more l _ _ ih ih' | followed l _ _ ih ih' =>
    intro place hplace
    refine .append ?_ ?_
    · exact (ih place hplace).mono (fun t ht => by simp [ht]) (List.subset_append_left _ _)
    · exact (ih' place hplace).mono (fun t ht => by simp [ht]) (List.subset_append_right _ _)
  | one _ ih =>
    intro place hplace
    refine .append ?_ .nil
    exact (ih place hplace).mono (List.Subset.refl _) (List.subset_append_left _ _)
  | block l l₁ _ ih =>
    intro place hplace
    refine .cons (t := Symbol.leftBrace.at l) hplace (by simp) (by rintro _ ⟨⟩) ?_
    exact (ih place hplace).mono (fun t ht => by simp [ht]) (List.Subset.refl _)
  | @nested ts b _ ih =>
    obtain ⟨brace, stmts⟩ := b
    exact ih
  | @get name program l l₁ _ =>
    intro place hplace
    refine .cons (t := Keyword.getWord.at l) hplace (by simp) (by rintro _ ⟨⟩) fun n hn => ?_
    exact .inr ⟨⟨l, name, program⟩, List.mem_singleton.2 rfl, hn⟩
  | @cond cs ts e b l l₁ l₂ _ _ he hb =>
    obtain ⟨brace, stmts⟩ := b
    intro place hplace
    have hb := (List.forall_mem_cons.1 (hb place hplace)).2
    refine .cons (t := Keyword.ifWord.at l) hplace (by simp) (by rintro _ ⟨⟩) (.append ?_ ?_)
    · exact (he place hplace).mono (fun t ht => by simp [ht]) (List.subset_append_left _ _)
    · exact Written.mono hb (fun t ht => by simp [ht]) (List.subset_append_right _ _)
  | @condElse cs ts us e b b' l l₁ l₂ l₃ _ _ _ he hb hb' =>
    obtain ⟨brace, stmts⟩ := b
    obtain ⟨brace', stmts'⟩ := b'
    intro place hplace
    have hb := (List.forall_mem_cons.1 (hb place hplace)).2
    have hb' := (List.forall_mem_cons.1 (hb' place hplace)).2
    refine .cons (t := Keyword.ifWord.at l) hplace (by simp) (by rintro _ ⟨⟩) (.append (.append ?_ ?_) ?_)
    · exact (he place hplace).mono (fun t ht => by simp [ht])
        (by simp [Category.gets, Stmt.gets, Item.gets])
    · exact Written.mono hb (fun t ht => by simp [ht]) (by simp [Category.gets, Stmt.gets])
    · exact Written.mono hb' (fun t ht => by simp [ht]) (by simp [Category.gets, Stmt.gets])
  | @loop cs ts e b l l₁ l₂ _ _ he hb =>
    obtain ⟨brace, stmts⟩ := b
    intro place hplace
    have hb := (List.forall_mem_cons.1 (hb place hplace)).2
    refine .cons (t := Keyword.loopWord.at l) hplace (by simp) (by rintro _ ⟨⟩) (.append ?_ ?_)
    · exact (he place hplace).mono (fun t ht => by simp [ht]) (List.subset_append_left _ _)
    · exact Written.mono hb (fun t ht => by simp [ht]) (List.subset_append_right _ _)
  | ret l _ ih =>
    intro place hplace
    refine .cons (t := Keyword.returnWord.at l) hplace (by simp) (by rintro _ ⟨⟩) ?_
    exact (ih place hplace).mono (fun t ht => by simp [ht]) (List.Subset.refl _)
  | @expr t ts e _ ih =>
    intro place hplace
    exact .cons (t := t) hplace (by simp) (by rintro _ ⟨⟩) (ih place hplace)
  | @assign t ts us e value l how _ _ ih ih' =>
    intro place hplace
    refine .cons (t := t) hplace (by simp) (fun noted h => ?_) (.append ?_ ?_)
    · exact absurd h (Form.ofAssign_ne_function how e noted)
    · exact (ih place hplace).mono (List.subset_append_left _ _) (List.subset_append_left _ _)
    · exact (ih' place hplace).mono (fun t ht => by simp [ht]) (List.subset_append_right _ _)

/-! ### Imports, by induction -/

namespace Program

variable {load : Loader} {limits : Limits} {stack : List String} {source : String} {p : Program}

/-- A text that was read is derivable: all of its tokens but the mark for the end, which is the last. -/
theorem derives_of_read (h : read load limits stack source = .ok p) :
    ∃ ts line, Token.scan limits.lexeme source = .ok (ts ++ [⟨.endOfInput, line⟩]) ∧
      Derives stack.getLast? (fetch load limits stack) .statements ts p := by
  rw [read_eq] at h
  rcases hscan : Token.scan limits.lexeme source with e | tokens
  · rw [hscan] at h
    cases h
  · rw [hscan] at h
    obtain ⟨used, hmoves, hderives, hend⟩ :=
      Parser.program_ok (Cursor.closed_ofList tokens) (Prod.ext h rfl)
    rw [Cursor.Moves, tokens_of_scan hscan] at hmoves
    obtain ⟨-, -, rfl⟩ := Token.scan_eq_ok_iff.1 hscan
    -- both lists are what stands before the first mark for the end
    have hfirst := congrArg (List.takeWhile fun t => !t.token.isEnd) hmoves
    rw [Cursor.tokens, endFree_located.takeWhile_append rfl,
      hderives.endFree.takeWhile_append hend] at hfirst
    exact ⟨_, _, rfl, hfirst ▸ hderives⟩

/-- What a text asks for is what its program imports. -/
theorem imports_eq_of_read (h : read load limits stack source = .ok p) :
    imports limits source = (getsAll p).map Import.file := by
  obtain ⟨ts, line, hscan, hderives⟩ := derives_of_read h
  rw [imports, hscan]
  show targets (ts ++ [⟨.endOfInput, line⟩]) = _
  rw [targets_append_cons (t := ⟨.endOfInput, line⟩) (by rintro _ ⟨⟩) (by rintro ⟨⟩),
    hderives.targets_eq]
  exact List.append_nil _

/-- What holds of a program that was read if it holds of the programs that it imports, holds of every
program that was read. -/
theorem read_induction {P : List String → String → Program → Prop}
    (step : ∀ stack source p, read load limits stack source = .ok p →
      (∀ i ∈ getsAll p, ∃ text, load i.file = .ok text ∧ P (stack ++ [i.file]) text i.program) →
        P stack source p)
    (h : read load limits stack source = .ok p) : P stack source p := by
  induction stack, source using stack_induction limits generalizing p with
  | step stack source ih =>
    refine step stack source p h fun i hi => ?_
    obtain ⟨hmem, text, hload, hread⟩ := fetch_eq_ok (fetched_of_read h i hi)
    have himports : i.file ∈ imports limits source := by
      rw [imports_eq_of_read h]
      exact List.mem_map_of_mem hi
    exact ⟨text, hload, ih _ _ hmem (length_le_of_mem_imports himports) hread⟩

/-- The nodes of a program that was read are of its text, or of the programs that it imports. -/
theorem written_of_read (h : read load limits stack source = .ok p) :
    ∃ ts line, Token.scan limits.lexeme source = .ok (ts ++ [⟨.endOfInput, line⟩]) ∧
      Written stack.getLast? ts (getsAll p) (nodesAll ⟨stack.getLast?, false⟩ p) := by
  obtain ⟨ts, line, hscan, hderives⟩ := derives_of_read h
  exact ⟨ts, line, hscan, hderives.written ⟨stack.getLast?, false⟩ rfl⟩

end Program

/-- The text that belongs to a file, where `source` is the text that belongs to `origin`. -/
inductive TextOf (load : Loader) (origin : Option String) (source : String) :
    Option String → String → Prop
  | source : TextOf load origin source origin source
  | loaded {name text : String} : load name = .ok text →
      TextOf load origin source (some name) text

/-- A node was written in the file that it belongs to. -/
structure Node.WrittenIn (load : Loader) (origin : Option String) (source : String) (n : Node) :
    Prop where
  line : ∃ text, TextOf load origin source n.place.file text ∧ IsLine text n.line
  noted : ∀ noted, n.form = .function noted → noted = n.place.file

/-- What holds of the nodes of a text by its tokens, holds of each node of a program that was read by the
text of the file that the node belongs to. -/
theorem Program.exists_textOf_of_read {load : Loader} {limits : Limits} {stack : List String}
    {source : String} {p : Program} {P : Option String → String → Node → Prop}
    (hown : ∀ {file source ts line n},
      Token.scan limits.lexeme source = .ok (ts ++ [⟨.endOfInput, line⟩]) → n.Own file ts →
        P file source n)
    (h : read load limits stack source = .ok p) :
    ∀ n ∈ nodesAll ⟨stack.getLast?, false⟩ p,
      ∃ text, TextOf load stack.getLast? source n.place.file text ∧ P n.place.file text n := by
  refine read_induction (P := fun stack source p => ∀ n ∈ nodesAll ⟨stack.getLast?, false⟩ p,
    ∃ text, TextOf load stack.getLast? source n.place.file text ∧ P n.place.file text n)
    (fun stack source p hread himports n hn => ?_) h
  obtain ⟨ts, line, hscan, hwritten⟩ := written_of_read hread
  rcases hwritten n hn with htext | ⟨i, hi, hin⟩
  · rw [htext.place]
    exact ⟨source, .source, hown hscan htext⟩
  · obtain ⟨text, hload, hall⟩ := himports i hi
    rw [List.getLast?_concat] at hall
    obtain ⟨text', htext, hP⟩ := hall n hin
    refine ⟨text', ?_, hP⟩
    generalize n.place.file = file at htext ⊢
    cases htext with
    | source => exact .loaded hload
    | loaded hload' => exact .loaded hload'

/-- **All code of a program was written in the file that it belongs to.** -/
theorem Program.writtenIn_of_read {load : Loader} {limits : Limits} {stack : List String}
    {source : String} {p : Program} (h : read load limits stack source = .ok p) :
    ∀ n ∈ nodesAll ⟨stack.getLast?, false⟩ p, n.WrittenIn load stack.getLast? source := by
  intro n hn
  obtain ⟨text, htext, hline, hnoted⟩ := exists_textOf_of_read (P := fun file text n =>
    IsLine text n.line ∧ ∀ noted, n.form = .function noted → noted = file)
    (fun hscan hown => by
      obtain ⟨t, ht, hline⟩ := hown.line
      exact ⟨hline ▸ Token.isLine_of_mem_scan hscan (List.mem_append_left _ ht), hown.noted⟩) h n hn
  exact ⟨⟨text, htext, hline⟩, hnoted⟩

end TableScript
