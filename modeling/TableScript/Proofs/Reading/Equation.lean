import TableScript.Count
import TableScript.Proofs.Parsing.Scanned

/-!
# The equation of reading

Reading is scanning, then parsing with the imports read in the same way (`read_eq`).  The definition does
not say so by itself: it recurs on a supply of names, and gives up where the supply is used up.  A name that
stands in a text fits into a token.  Such names can be counted, and each import takes one of them away
(`unusedNames_append_lt`).  A parser asks for no other names, so the supply lasts (`readWith_eq_of_lt`).
The same count is what induction over imports goes by (`stack_induction`).
-/

namespace TableScript

/-! ### The names that are left -/

/-- The texts of `n` characters. -/
def textsOfLength : Nat → List (List Char)
  | 0 => [[]]
  | n + 1 => (List.range (0x10ffff + 1)).flatMap fun k =>
      (textsOfLength n).map (Char.ofNat k :: ·)

theorem mem_textsOfLength (cs : List Char) : cs ∈ textsOfLength cs.length := by
  induction cs with
  | nil => simp [textsOfLength]
  | cons c cs ih =>
    simp only [List.length_cons, textsOfLength, List.mem_flatMap, List.mem_map, List.mem_range]
    refine ⟨c.toNat, ?_, cs, ih, by simp⟩
    have h := c.valid
    simp only [Char.toNat, UInt32.isValidChar, Nat.isValidChar] at h ⊢
    omega

theorem length_textsOfLength (n : Nat) : (textsOfLength n).length = Nat.pow (0x10ffff + 1) n := by
  induction n with
  | zero => rfl
  | succ n ih =>
    simp only [textsOfLength, List.length_flatMap, List.length_map, ih]
    rw [List.map_const', List.sum_replicate_nat, List.length_range, Nat.mul_comm]
    rfl

/-- The texts of at most `n` characters. -/
def textsUpTo (n : Nat) : List (List Char) := (List.range (n + 1)).flatMap textsOfLength

theorem mem_textsUpTo {cs : List Char} {n : Nat} (h : cs.length ≤ n) : cs ∈ textsUpTo n := by
  simp only [textsUpTo, List.mem_flatMap, List.mem_range]
  exact ⟨cs.length, by omega, mem_textsOfLength cs⟩

theorem length_textsUpTo_lt (n : Nat) : (textsUpTo n).length < (Supply.texts n).size := by
  have hlength : ∀ k, (textsOfLength k).length = Nat.pow (0x10ffff + 1) (0 + k) := by
    intro k
    rw [Nat.zero_add]
    exact length_textsOfLength k
  rw [Supply.texts, Supply.size, Supply.size_powers hlength]
  exact Nat.lt_succ_self _

/-- How many texts of at most `n` characters are not names on the stack. -/
def unusedNames (n : Nat) (stack : List String) : Nat :=
  (textsUpTo n).countP fun cs => !stack.contains (String.ofList cs)

theorem unusedNames_lt (n : Nat) (stack : List String) :
    unusedNames n stack < (Supply.texts n).size :=
  Nat.lt_of_le_of_lt List.countP_le_length (length_textsUpTo_lt n)

theorem unusedNames_append_lt {n : Nat} {stack : List String} {file : String}
    (hlen : file.length ≤ n) (hmem : stack.contains file = false) :
    unusedNames n (stack ++ [file]) < unusedNames n stack := by
  refine countP_lt_countP
    (mem_textsUpTo (n := n) (String.length_toList ▸ hlen : file.toList.length ≤ n)) ?_ ?_ ?_
  · simpa using hmem
  · simp
  · intro x hx
    simp only [List.contains_append, Bool.not_or, Bool.and_eq_true] at hx
    exact hx.1

/-! ### Reading -/

namespace Program

variable {load : Loader} {limits : Limits} {stack : List String} {source : String}

/-- Two ways of reading that agree wherever an import of `file` can lead fetch it in the same way. -/
theorem fetchWith_congr {read read' : List String → String → Except Error Program} {line : Nat}
    {file : String}
    (h : file ∉ stack → ∀ text, read (stack ++ [file]) text = read' (stack ++ [file]) text) :
    fetchWith load read stack line file = fetchWith load read' stack line file := by
  unfold fetchWith
  split
  · rfl
  · next hmem =>
    rcases load file with (_ | details) | text
    · rfl
    · rfl
    · simp only
      rw [h (by simpa using hmem) text]

/-- Two ways of reading that agree wherever the imports of a scanned text can lead give the same
program: each of the imports takes one of the names that are left. -/
theorem program_of_scan {read read' : List String → String → Except Error Program}
    {tokens : List Located} (hscan : Token.scan limits.lexeme source = .ok tokens)
    (h : ∀ file text,
      unusedNames limits.lexeme (stack ++ [file]) < unusedNames limits.lexeme stack →
        read (stack ++ [file]) text = read' (stack ++ [file]) text) :
    Parser.program ⟨limits, stack.getLast?, fetchWith load read stack⟩ (Cursor.ofList tokens) =
      Parser.program ⟨limits, stack.getLast?, fetchWith load read' stack⟩ (Cursor.ofList tokens) := by
  refine Parser.program_congr rfl rfl fun file hfile line => (fetchWith_congr fun hmem text => ?_).symm
  rw [tokens_of_scan hscan] at hfile
  have hlength := length_le_of_mem_targets hscan hfile
  exact h file text (unusedNames_append_lt (by omega) (by simpa using hmem))

/-- A larger supply of names than are left changes nothing. -/
theorem readWith_eq_of_lt {s s' : Supply} (hs : unusedNames limits.lexeme stack < s.size)
    (hs' : unusedNames limits.lexeme stack < s'.size) :
    readWith load limits s stack source = readWith load limits s' stack source := by
  induction s generalizing s' stack source with
  | empty => simp [Supply.size] at hs
  | more rest ih =>
    cases s' with
    | empty => simp [Supply.size] at hs'
    | more rest' =>
      simp only [Supply.size] at hs hs'
      rw [readWith, readWith]
      rcases hscan : Token.scan limits.lexeme source with e | tokens
      · rfl
      · refine congrArg Prod.fst (program_of_scan hscan fun file text hlt => ih () ?_ ?_)
        · omega
        · omega

/-- **Reading is scanning, then parsing in the setting of the stack.** -/
theorem read_eq (load : Loader) (limits : Limits) (stack : List String) (source : String) :
    read load limits stack source =
      match Token.scan limits.lexeme source with
      | .error e => .error e
      | .ok tokens => (Parser.program (setting load limits stack) (Cursor.ofList tokens)).1 := by
  rw [read, Supply.texts, readWith]
  rcases hscan : Token.scan limits.lexeme source with e | tokens
  · rfl
  · refine congrArg Prod.fst
      (program_of_scan hscan fun file text hlt => readWith_eq_of_lt ?_ (unusedNames_lt _ _))
    have hall := unusedNames_lt limits.lexeme stack
    simp only [Supply.texts, Supply.size] at hall
    omega

/-- What holds of a text with some files around it if it holds of every text with one more file around it
that fits into a token, holds of every text.  There are finitely many such files. -/
@[elab_as_elim]
theorem stack_induction (limits : Limits) {Q : List String → String → Prop}
    (step : ∀ stack source, (∀ file text, file ∉ stack → file.length + 2 ≤ limits.lexeme →
      Q (stack ++ [file]) text) → Q stack source) (stack : List String) (source : String) :
    Q stack source := by
  induction hn : unusedNames limits.lexeme stack using Nat.strongRecOn generalizing stack source with
  | ind n ih =>
    subst hn
    refine step stack source fun file text hmem hlength => ih _ ?_ _ _ rfl
    exact unusedNames_append_lt (by omega) (by simpa using hmem)

end Program

end TableScript
