import TableScript.Proofs.Parsing.Soundness
import TableScript.Proofs.Reading.Equation

/-!
# The imports in a program

An import can stand anywhere in a program: at the top, in a block, in the body of a function that is
part of an expression.  `getsAll` lists the imports of a program with the programs that they stand for,
without those inside of imported programs.  `Chain p files` follows imports into imported programs.

Every import in a program that was derived has been fetched (`Derives.fetched`).  A file that is on
the stack is not fetched, so along a chain no name comes twice (`nodup_of_chain`).
-/

namespace TableScript

/-- An import as it stands in a program. -/
structure Import where
  line : Nat
  file : String
  program : Program

mutual

/-- The imports in an expression. -/
def Expr.gets : Expr → List Import
  | .number _ _ => []
  | .text _ _ => []
  | .bool _ _ => []
  | .var _ _ => []
  | .function _ (.mk _ _ _ _ (.mk _ stmts)) => getsAll stmts
  | .unary _ _ e => e.gets
  | .arith _ _ l r => l.gets ++ r.gets
  | .compare _ _ l r => l.gets ++ r.gets
  | .call _ callee args => callee.gets ++ getsArgs args
  | .index _ base key => base.gets ++ key.gets
  | .table _ entries => getsEntries entries

/-- The imports in expressions. -/
def getsArgs : List Expr → List Import
  | [] => []
  | e :: es => e.gets ++ getsArgs es

/-- The imports in table entries. -/
def getsEntries : List (Expr × Expr) → List Import
  | [] => []
  | (k, v) :: es => k.gets ++ v.gets ++ getsEntries es

/-- The imports in a statement. -/
def Stmt.gets : Stmt → List Import
  | .assign _ _ target value => target.gets ++ value.gets
  | .block (.mk _ stmts) => getsAll stmts
  | .get line file program => [⟨line, file, program⟩]
  | .cond _ e (.mk _ yes) none => e.gets ++ getsAll yes
  | .cond _ e (.mk _ yes) (some (.mk _ no)) => e.gets ++ getsAll yes ++ getsAll no
  | .loop _ e (.mk _ stmts) => e.gets ++ getsAll stmts
  | .ret _ e => e.gets
  | .expr _ e => e.gets

/-- The imports in statements. -/
def getsAll : List Stmt → List Import
  | [] => []
  | s :: ss => s.gets ++ getsAll ss

end

/-- The files along nested imports: the first is imported by the program, and each next one by the
program of the one before. -/
inductive Chain : Program → List String → Prop
  | stop {p} : Chain p []
  | step {p files} {i : Import} : i ∈ getsAll p → Chain i.program files → Chain p (i.file :: files)

/-! ### Imports were fetched -/

/-- The imports in an item of a list. -/
def Item.gets : (k : Item) → k.Tree → List Import
  | .name, _ => []
  | .expression, e => e.gets
  | .entry, (k, v) => k.gets ++ v.gets

/-- The imports in the tree of a category. -/
def Category.gets : (k : Category) → k.Tree → List Import
  | .primary, e | .postfixed, e | .signed, e | .product, e | .sum, e => Expr.gets e
  | .item k, a => k.gets a
  | .several k, as | .list k, as => as.flatMap k.gets
  | .block, .mk _ stmts => getsAll stmts
  | .statement, s => s.gets
  | .statements, ss => getsAll ss

theorem getsArgs_eq (es : List Expr) : getsArgs es = es.flatMap (Item.gets .expression) := by
  induction es with
  | nil => rfl
  | cons e es ih => rw [getsArgs, ih, List.flatMap_cons, Item.gets]

theorem getsEntries_eq (es : List (Expr × Expr)) :
    getsEntries es = es.flatMap (Item.gets .entry) := by
  induction es with
  | nil => rfl
  | cons e es ih =>
    obtain ⟨k, v⟩ := e
    rw [getsEntries, ih, List.flatMap_cons, Item.gets]

/-- Whatever was derived, its imports have been fetched. -/
theorem Derives.fetched {file : Option String} {fetch : Nat → String → Except Error Program}
    {k : Category} {ts : List Located} {a : k.Tree} (h : Derives file fetch k ts a) :
    ∀ i ∈ k.gets a, fetch i.line i.file = .ok i.program := by
  induction h with
  | number | bool | text | var | name | noItems | empty =>
    intro i hi
    cases hi
  | @function ps bs params body l l₁ l₂ _ _ _ hbody =>
    obtain ⟨brace, stmts⟩ := body
    exact hbody
  | table l l₁ _ hentries =>
    show ∀ i ∈ getsEntries _, _
    rw [getsEntries_eq]
    exact hentries
  | paren _ _ _ ih | bare _ ih | unsigned _ ih | sign _ _ _ _ _ ih | factor _ ih | summand _ ih
  | single _ ih | items _ ih | ret _ _ ih | expr _ ih => exact ih
  | call l l₁ _ _ hcallee hargs =>
    refine List.forall_mem_append.2 ⟨hcallee, ?_⟩
    rw [getsArgs_eq]
    exact hargs
  | index _ _ _ _ ih ih' | times _ _ _ _ _ _ _ ih ih' | plus _ _ _ _ _ _ _ ih ih'
  | compared _ _ _ _ _ _ ih ih' | entry _ _ _ ih ih' | more _ _ _ ih ih' | assign _ _ _ _ ih ih'
  | followed _ _ _ ih ih' => exact List.forall_mem_append.2 ⟨ih, ih'⟩
  | one _ ih => exact List.forall_mem_append.2 ⟨ih, fun i hi => (by cases hi)⟩
  | block _ _ _ ih => exact ih
  | @nested ts b _ ih =>
    obtain ⟨brace, stmts⟩ := b
    exact ih
  | get l l₁ hfetch =>
    intro i hi
    obtain rfl := List.mem_singleton.1 hi
    exact hfetch
  | @cond cs ts e b l l₁ l₂ _ _ he hb =>
    obtain ⟨brace, stmts⟩ := b
    exact List.forall_mem_append.2 ⟨he, hb⟩
  | @condElse cs ts us e b b' l l₁ l₂ l₃ _ _ _ he hb hb' =>
    obtain ⟨brace, stmts⟩ := b
    obtain ⟨brace', stmts'⟩ := b'
    exact List.forall_mem_append.2 ⟨List.forall_mem_append.2 ⟨he, hb⟩, hb'⟩
  | @loop cs ts e b l l₁ l₂ _ _ he hb =>
    obtain ⟨brace, stmts⟩ := b
    exact List.forall_mem_append.2 ⟨he, hb⟩

open Program in
/-- The names behind `Get` are the files of the imports, in order. -/
theorem Derives.targets_eq {file : Option String} {fetch : Nat → String → Except Error Program}
    {k : Category} {ts : List Located} {a : k.Tree} (h : Derives file fetch k ts a) :
    targets ts = (k.gets a).map Import.file := by
  have hsymbol : ∀ (m : Symbol) l ts us, targets (ts ++ m.at l :: us) = targets ts ++ targets us :=
    fun m l => targets_append_cons (by rintro _ ⟨⟩) (by rintro ⟨⟩)
  have helse : ∀ l ts us,
      targets (ts ++ Keyword.elseWord.at l :: us) = targets ts ++ targets us :=
    fun l => targets_append_cons (by rintro _ ⟨⟩) (by rintro ⟨⟩)
  induction h with
  | number | bool | text | var | name | noItems | empty => rfl
  | @function ps bs params body l l₁ l₂ _ _ hps hbs =>
    obtain ⟨brace, stmts⟩ := body
    have hparams : Category.gets (.list .name) params = [] :=
      List.flatMap_eq_nil_iff.2 fun _ _ => rfl
    show targets (ps ++ Symbol.rightParen.at l₂ :: bs) = _
    rw [hsymbol, hps, hbs, hparams]
    rfl
  | @table ts entries l l₁ _ ih =>
    show targets (ts ++ [Symbol.rightBracket.at l₁]) = (getsEntries entries).map _
    rw [hsymbol, ih, getsEntries_eq]
    exact List.append_nil _
  | @paren ts e l l₁ _ ih =>
    show targets (ts ++ [Symbol.rightParen.at l₁]) = _
    rw [hsymbol, ih]
    exact List.append_nil _
  | bare _ ih | unsigned _ ih | factor _ ih | summand _ ih | single _ ih | items _ ih | expr _ ih =>
    exact ih
  | @call ts us e args l l₁ _ _ ih ih' =>
    show _ = (e.gets ++ getsArgs args).map _
    rw [hsymbol, hsymbol, ih, ih', getsArgs_eq, List.map_append]
    exact congrArg _ (List.append_nil _)
  | index l l₁ _ _ ih ih' =>
    rw [hsymbol, hsymbol, ih, ih', ← List.append_assoc, ← List.map_append]
    exact List.append_nil _
  | sign l m op _ _ ih => exact ih
  | times l m op _ _ _ _ ih ih' | plus l m op _ _ _ _ ih ih' | compared l m op _ _ _ ih ih'
  | entry l _ _ ih ih' | more l _ _ ih ih' | followed l _ _ ih ih' =>
    rw [hsymbol, ih, ih', ← List.map_append]
    rfl
  | one _ ih =>
    rw [ih]
    exact congrArg _ (List.append_nil _).symm
  | @block ts ss l l₁ _ ih =>
    show targets (ts ++ [Symbol.rightBrace.at l₁]) = _
    rw [hsymbol, ih]
    exact List.append_nil _
  | @nested ts b _ ih =>
    obtain ⟨brace, stmts⟩ := b
    exact ih
  | get => rfl
  | @cond cs ts e b l l₁ l₂ _ _ he hb | @loop cs ts e b l l₁ l₂ _ _ he hb =>
    obtain ⟨brace, stmts⟩ := b
    show targets (cs ++ Symbol.rightParen.at l₂ :: ts) = _
    rw [hsymbol, he, hb, ← List.map_append]
    rfl
  | @condElse cs ts us e b b' l l₁ l₂ l₃ _ _ _ he hb hb' =>
    obtain ⟨brace, stmts⟩ := b
    obtain ⟨brace', stmts'⟩ := b'
    show targets (cs ++ Symbol.rightParen.at l₂ :: (ts ++ Keyword.elseWord.at l₃ :: us)) = _
    rw [hsymbol, helse, he, hb, hb', ← List.append_assoc, ← List.map_append, ← List.map_append]
    rfl
  | ret l _ ih => exact ih
  | @assign t ts us e value l how _ _ ih ih' =>
    show targets ((t :: ts) ++ how.mark.at l :: us) = _
    rw [hsymbol, ih, ih', ← List.map_append]
    rfl

/-! ### No name comes twice -/

namespace Program

variable {load : Loader} {limits : Limits} {stack : List String}

/-- A file that could be fetched is not on the stack, and its text could be read with it on top. -/
theorem fetch_eq_ok {line : Nat} {file : String} {p : Program}
    (h : fetch load limits stack line file = .ok p) :
    file ∉ stack ∧ ∃ text, load file = .ok text ∧ read load limits (stack ++ [file]) text = .ok p := by
  unfold fetch fetchWith at h
  split at h
  · cases h
  · next hmem =>
    refine ⟨by simpa using hmem, ?_⟩
    split at h
    · cases h
    · cases h
    · next text hload =>
      refine ⟨text, hload, ?_⟩
      rcases hread : read load limits (stack ++ [file]) text with e | q
      · rw [hread] at h
        cases h
      · rw [hread] at h
        exact h

/-- The imports of a program that was read have been fetched. -/
theorem fetched_of_read {source : String} {p : Program}
    (h : read load limits stack source = .ok p) :
    ∀ i ∈ getsAll p, fetch load limits stack i.line i.file = .ok i.program := by
  rw [read_eq] at h
  split at h
  · cases h
  · next tokens _ =>
    obtain ⟨used, -, hderives, -⟩ := Parser.program_ok (Cursor.closed_ofList tokens) (Prod.ext h rfl)
    exact hderives.fetched

theorem nodup_of_chain {source : String} {p : Program} {files : List String}
    (hstack : stack.Nodup) (h : read load limits stack source = .ok p) (hchain : Chain p files) :
    (stack ++ files).Nodup := by
  induction hchain generalizing stack source with
  | stop => rwa [List.append_nil]
  | @step p files i hi _ ih =>
    obtain ⟨hmem, text, -, hread⟩ := fetch_eq_ok (fetched_of_read h i hi)
    have hstack' : (stack ++ [i.file]).Nodup := by
      rw [List.nodup_append]
      refine ⟨hstack, by simp, ?_⟩
      rintro a ha b hb rfl
      exact hmem (List.mem_singleton.1 hb ▸ ha)
    rw [List.append_cons]
    exact ih hstack' hread

end Program

end TableScript
