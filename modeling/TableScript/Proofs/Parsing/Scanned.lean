import TableScript.Proofs.Parsing.Acceptance
import TableScript.Proofs.Parsing.Targets
import TableScript.Proofs.Scanning.Tokens

/-!
# Tokens that were scanned

A parser takes any list of tokens.  A list that was scanned has its only mark for the end as the last
token (`endFree_located`), and the names that it asks for fit into a token
(`length_le_of_mem_targets`).
-/

namespace TableScript

namespace Program

variable {source : String}

/-- Scanned tokens are closed as they are. -/
theorem tokens_of_scan {limit : Nat} {tokens : List Located}
    (h : Token.scan limit source = .ok tokens) : (Cursor.ofList tokens).tokens = tokens := by
  obtain ⟨-, -, rfl⟩ := Token.scan_eq_ok_iff.1 h
  exact Cursor.tokens_ofList_of_end _ _

/-- A name that stands in a text fits into a token. -/
theorem length_le_of_mem_targets {limit : Nat} {tokens : List Located} {file : String}
    (h : Token.scan limit source = .ok tokens) (hfile : file ∈ targets tokens) :
    file.length + 2 ≤ limit := by
  obtain ⟨line, hmem⟩ := exists_text_of_mem_targets hfile
  exact Token.length_le_of_mem_scan h hmem

/-- A file that a text may ask for has a name that fits into a token. -/
theorem length_le_of_mem_imports {limits : Limits} {file : String}
    (hfile : file ∈ imports limits source) : file.length + 2 ≤ limits.lexeme := by
  unfold imports at hfile
  split at hfile
  · next tokens hscan => exact length_le_of_mem_targets hscan hfile
  · cases hfile

theorem endFree_located {before : List Char} {pieces : List Piece} :
    EndFree (located before pieces) := by
  intro t ht
  obtain ⟨x, -, htoken⟩ := Token.exists_piece_of_mem_located ht
  obtain ⟨token, line⟩ := t
  cases token with
  | endOfInput =>
    obtain ⟨pattern, chars⟩ := x
    cases pattern <;> cases htoken
  | _ => rfl

end Program

end TableScript
