import TableScript.Program.Source
import TableScript.Proofs.Parsing.Tracking

/-!
# A parser that counts its depth

The grammar is given the parsers of the next level as an argument, and of its state it uses the cursor
only.  So the same rules can be run by a parser that keeps books: it counts how deep it is, one more for
each expression or block that it enters and one less when it leaves, and beside the count it has the list
of files that are being imported.  A `Descent` is the state of such a parser.  Errors leave it from
anywhere, so it is not plain that the count is right afterwards.

It does what the parser with levels does (`mirrors_descend`, `mirrors_program`).  At each depth a descent
corresponds to its cursor (`correspondence_descent`), and the walk over the grammar carries this up rule by
rule; entering a level trades a level of the one for a step of depth of the other (`mirrors_nested`).

A descent does not say how far down it can go, so its recursion is on a number of steps.  One step more
than the limit on nesting is enough, and more than that change nothing.
-/

namespace TableScript

/-- The state of a parser that counts its depth. -/
structure Descent where
  cursor : Cursor
  /-- How many expressions and blocks have been entered and not been left. -/
  depth : Nat
  /-- The files that are being imported, the innermost last. -/
  stack : List String

instance : HasCursor Descent := ⟨Descent.cursor, fun s c => { s with cursor := c }, fun _ => rfl⟩

/-- A parser that counts its depth. -/
abbrev Descending := ParserOn Descent

namespace Descending

variable {α : Type}

/-- Runs `x` one level deeper, if there is one.  The count goes back also when `x` fails. -/
def nested (limit : Nat) (x : Descending α) : Descending α := fun s =>
  if limit ≤ s.depth then Parser.failHere (fun _ => .nestingTooDeep limit) s
  else Action.between (fun s => { s with depth := s.depth + 1 })
    (fun s => { s with depth := s.depth - 1 }) x s

section

variable (load : Loader) (limits : Limits)

/-- A rule of the grammar, in the setting that the files being imported at this time give. -/
def inSetting (rule : Setting → Descending α) : Descending α := fun s =>
  rule (Program.setting load limits s.stack) s

/-- Expressions and blocks, each a level deeper than where it is called, in at most `n` steps down. -/
def descend : Nat → InnerOn Descent
  | 0 => ⟨Parser.failHere .unexpectedToken, Parser.failHere .unexpectedToken⟩
  | n + 1 =>
    ⟨nested limits.nesting (inSetting load limits fun st => Parser.comparison st (descend n)),
      nested limits.nesting (inSetting load limits fun st => Parser.blockBody st (descend n))⟩

/-- The parsers that a descent at depth zero calls. -/
def outermost : InnerOn Descent := descend load limits (limits.nesting + 1)

/-- A statement, without the semicolon behind it. -/
def statement : Descending Stmt :=
  inSetting load limits fun st => Parser.statement st (outermost load limits)

/-- Statements up to the end of the input. -/
def program : Descending Program :=
  inSetting load limits fun st => Parser.programBody st (outermost load limits)

end

/-! ### It does what the parser with levels does -/

/-- A descent at depth `d` with the files `stack` corresponds to its cursor. -/
theorem correspondence_descent (stack : List String) (d : Nat) :
    Parser.Correspondence (fun line => line) (fun s c => s = (⟨c, d, stack⟩ : Descent))
      fun _ => False where
  current := by
    rintro _ c rfl
    rfl
  line := by
    rintro _ c rfl
    rfl
  advance := by
    rintro _ c rfl
    exact .inl rfl
  stays := id
  remaining := by
    refine ⟨0, 0, ?_⟩
    rintro _ c rfl
    rfl

/-- At depth `d`, with the files `stack`, the parser `x` does what `y` does and keeps depth and files. -/
abbrev Mirrors (stack : List String) (d : Nat) (g : α → α) (x : Descending α) (y : Parser α) : Prop :=
  Parser.Tracks (correspondence_descent stack d) (fun _ => False) g x y

variable {stack : List String} {d : Nat} {g : α → α}

theorem Mirrors.apply {x : Descending α} {y : Parser α} (h : Mirrors stack d g x y)
    (hg : ∀ a, g a = a) (c : Cursor) : x ⟨c, d, stack⟩ = ((y c).1, ⟨(y c).2, d, stack⟩) := by
  obtain ⟨c₁, hy, hx⟩ := h.exists_eq (s := ⟨c, d, stack⟩) rfl
  rw [Parser.mapResult_eq_self hg] at hy
  rw [hy]
  exact Prod.ext rfl hx

/-- One level deeper is one level less. -/
theorem mirrors_nested {limit : Nat} {x : Descending α} {y : Parser α} (hlt : d < limit)
    (hx : Mirrors stack (d + 1) g x y) : Mirrors stack d g (nested limit x) y where
  stays hexit _ := hexit
  same := by
    rintro _ c r s₁ rfl hr
    have hentered : nested limit x ⟨c, d, stack⟩ = ((x ⟨c, d + 1, stack⟩).1,
        { (x ⟨c, d + 1, stack⟩).2 with depth := (x ⟨c, d + 1, stack⟩).2.depth - 1 }) :=
      if_neg (Nat.not_le.2 hlt)
    obtain ⟨c₁, hy, hs⟩ := hx.exists_eq (s := ⟨c, d + 1, stack⟩) rfl
    rw [hentered, hs] at hr
    cases hr
    exact .inr (.inr ⟨c₁, hy, rfl⟩)

/-- Where no level is left, entering one fails. -/
theorem mirrors_nested_of_le {limit : Nat} (x : Descending α) (hle : limit ≤ d) :
    Mirrors stack d g (nested limit x) (Parser.failHere fun _ => .nestingTooDeep limit) := by
  have hfails : Mirrors stack d g (Parser.failHere fun _ => .nestingTooDeep limit)
      (Parser.failHere fun _ => .nestingTooDeep limit) := Parser.tracks_failHere _
  refine ⟨fun hexit _ => hexit, ?_⟩
  rintro _ c r s₁ rfl hr
  have hrefused : nested limit x ⟨c, d, stack⟩ =
      Parser.failHere (fun _ => .nestingTooDeep limit) ⟨c, d, stack⟩ := if_pos hle
  rw [hrefused] at hr
  exact hfails.same rfl hr

variable {load : Loader} {limits : Limits}

/-- The setting of a rule is that of the files that the descent has. -/
theorem mirrors_inSetting {rule : Setting → Descending α} {y : Parser α}
    (h : Mirrors stack d g (rule (Program.setting load limits stack)) y) :
    Mirrors stack d g (inSetting load limits rule) y where
  stays hexit _ := hexit
  same := by
    rintro _ c r s₁ rfl hr
    exact h.same rfl hr

/-! ### Levels and depth -/

/-- The parsers that a descent at depth `d` calls do what those of a setting do. -/
abbrev InnerMirrors (stack : List String) (d : Nat) (inner : InnerOn Descent) (inner' : Inner) : Prop :=
  Parser.InnerRelated (fun line => line) (fun file => file) (Mirrors stack d) inner inner'

/-- With steps enough to come to the limit, a descent at depth `d` does what the parsers of the levels
that are left do. -/
theorem mirrors_descend {n m : Nat} (hlimit : limits.nesting = d + m) (hsteps : m < n) :
    InnerMirrors stack d (descend load limits n)
      (Parser.levels (Program.setting load limits stack) m) := by
  induction n generalizing d m with
  | zero => omega
  | succ n ih =>
    cases m with
    | zero =>
      -- no level is left, and both refuse
      have hle : limits.nesting ≤ d := by omega
      exact ⟨mirrors_nested_of_le _ hle, mirrors_nested_of_le _ hle⟩
    | succ m =>
      have hinner := ih (d := d + 1) (m := m) (by omega) (by omega)
      have hlt : d < limits.nesting := by omega
      have hR := Parser.parametric_tracks (correspondence_descent stack (d + 1)) fun _ => False
      have hst := (Program.setting load limits stack).natural_id.agrees
      constructor
      · exact mirrors_nested hlt (mirrors_inSetting (hR.comparison hinner rfl))
      · exact mirrors_nested hlt (mirrors_inSetting (hR.blockBody hinner (Parser.tracks_getHere hst)))

variable (stack load limits)

theorem mirrors_outermost :
    InnerMirrors stack 0 (outermost load limits)
      (Parser.outermost (Program.setting load limits stack)) :=
  mirrors_descend (Nat.zero_add _).symm (Nat.lt_succ_self _)

theorem mirrors_statement :
    Mirrors stack 0 (Stmt.relabel (.ofText (fun line => line) fun file => file) true)
      (statement load limits)
      (Parser.statement (Program.setting load limits stack)
        (Parser.outermost (Program.setting load limits stack))) := by
  have hst := (Program.setting load limits stack).natural_id.agrees
  have hR := Parser.parametric_tracks (correspondence_descent stack 0) fun _ => False
  exact mirrors_inSetting
    (hR.statement (mirrors_outermost stack load limits) (Parser.tracks_getHere hst))

theorem mirrors_program :
    Mirrors stack 0 (Program.mapLines fun line => line) (program load limits)
      (Parser.program (Program.setting load limits stack)) := by
  have hst := (Program.setting load limits stack).natural_id.agrees
  have hR := Parser.parametric_tracks (correspondence_descent stack 0) fun _ => False
  exact mirrors_inSetting
    (hR.programBody (mirrors_outermost stack load limits) (Parser.tracks_getHere hst))

end Descending

end TableScript
