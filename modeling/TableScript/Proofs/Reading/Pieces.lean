import TableScript.Proofs.Reading.Layout
import TableScript.Proofs.Reading.Provenance

/-!
# Texts that are read in pieces

A text that is a program ends behind a semicolon, up to layout (`stops_of_read`).  So if another text
is put behind it, no segment runs on from one into the other, and the tokens of the two are those of the
one and then those of the other, on raised lines (`scan_append_of_read`).  The statements of the first
are complete, so they are read whatever follows.  What is left is to read the second text by itself
(`read_append`).
-/

namespace TableScript

/-- Statements end with a semicolon. -/
theorem Derives.getLast?_statements {file : Option String}
    {fetch : Nat → String → Except Error Program} {ts : List Located} {p : Program}
    (h : Derives file fetch .statements ts p) :
    ∀ t ∈ ts.getLast?, t.token = .symbol .semicolon := by
  induction p generalizing ts with
  | nil =>
    cases h with
    | empty => exact fun _ h => nomatch h
  | cons s ss ih =>
    cases h with
    | @followed _ us _ _ l _ hrest =>
      rw [List.getLast?_append]
      rcases hlast : us.getLast? with - | u
      · obtain rfl := List.getLast?_eq_none_iff.1 hlast
        rintro _ ⟨⟩
        rfl
      · rw [List.getLast?_cons, hlast]
        rintro _ ⟨⟩
        exact ih hrest u hlast

namespace Token

open Segment

/-- The token of the last piece comes last. -/
theorem located_concat (before : List Char) (pieces : List Piece) (x : Piece) :
    ∃ line, located before (pieces ++ [x]) =
      located before pieces ++ (x.token?.map fun t => ⟨t, line⟩).toList := by
  induction pieces generalizing before with
  | nil =>
    refine ⟨1 + before.count '\n', ?_⟩
    exact List.append_nil _
  | cons y ys ih =>
    obtain ⟨line, hline⟩ := ih (before ++ y.chars)
    exact ⟨line, by rw [List.cons_append, located, hline, located, List.append_assoc]⟩

/-- A segment with the token of a semicolon is one. -/
theorem kind_of_token?_semicolon {seg : Segment}
    (h : seg.piece.token? = some (.symbol .semicolon)) : seg.kind = .symbol .semicolon := by
  obtain ⟨kind, chars⟩ := seg
  cases kind with
  | symbol m =>
    cases h
    rfl
  | word =>
    have hword := token?_wordPattern chars
    rw [show (⟨wordPattern chars, chars⟩ : Piece).token? = _ from h] at hword
    rcases ofWord_cases (String.ofList chars) with ⟨b, -, hw⟩ | ⟨k, -, hw⟩ | ⟨hw, -, -⟩
    all_goals
      rw [hw] at hword
      cases hword
  | _ => cases h

/-- A segment without a token stops before anything, unless it is blanks. -/
theorem stops_of_token?_none {seg : Segment} (h : seg.piece.token? = none) (x : List Char) :
    seg.kind = .blank ∨ seg.Stops x := by
  obtain ⟨kind, chars⟩ := seg
  cases kind with
  | blank => exact .inl rfl
  | comment | newline => exact .inr fun _ _ => rfl
  | word =>
    rw [show (⟨.word, chars⟩ : Segment).piece.token? = _ from token?_wordPattern chars] at h
    cases h
  | _ => cases h

end Token

namespace Program

open Segment Token

variable {load : Loader} {limits : Limits} {stack : List String} {source : String} {p : Program}

/-- No segment of a text that is a program runs on behind its end, blanks apart. -/
theorem stops_of_read (h : read load limits stack source = .ok p) (x : List Char) :
    ∀ seg ∈ (split source.toList).1.getLast?, seg.kind = .blank ∨ seg.Stops x := by
  obtain ⟨ts, line, hscan, hderives⟩ := derives_of_read h
  obtain ⟨-, -, htokens⟩ := scan_eq_ok_iff.1 hscan
  intro seg hseg
  obtain ⟨segs, hsegs⟩ := List.getLast?_eq_some_iff.1 hseg
  rcases htoken : seg.piece.token? with - | t
  · exact stops_of_token?_none htoken x
  · -- then its token is the last one, which is a semicolon
    obtain ⟨l, hlast⟩ := located_concat [] (segs.map piece) seg.piece
    rw [hsegs, List.map_append, List.map_singleton, hlast, htoken] at htokens
    obtain rfl := List.append_inj_left' htokens rfl
    have hsemicolon : t = .symbol .semicolon :=
      hderives.getLast?_statements ⟨t, l⟩ List.getLast?_concat
    rw [hsemicolon] at htoken
    obtain ⟨kind, chars⟩ := seg
    obtain rfl : kind = .symbol .semicolon := kind_of_token?_semicolon htoken
    exact .inr fun _ _ => rfl

/-- A text that is a program keeps its tokens when another text follows. -/
theorem scan_append_of_read (h : read load limits stack source = .ok p) (source' : String) :
    scan limits.lexeme (source ++ source') =
      joined (scan limits.lexeme source)
        (raiseFrom 0 (source.toList.count '\n') (scan limits.lexeme source')) := by
  obtain ⟨ts, line, hscan, -⟩ := derives_of_read h
  obtain ⟨hwhole, -, -⟩ := scan_eq_ok_iff.1 hscan
  rw [scan_eq_scanFrom, String.toList_append, scanFrom_append hwhole (stops_of_read h _),
    scanFrom_add]
  rfl

/-- **A text that is a program may stand before any other.**  Its statements come first, and then what
comes of the other text, on raised lines. -/
theorem read_append (h : read load limits stack source = .ok p) (source' : String) :
    read load limits stack (source ++ source') =
      mapResult (· + source.toList.count '\n')
        (fun p' => p ++ Program.mapLines (· + source.toList.count '\n') p')
        (read load limits stack source') := by
  generalize hk : source.toList.count '\n' = k
  have hscan := scan_append_of_read h source'
  obtain ⟨ts, line, hts, hderives⟩ := derives_of_read h
  rw [hts, hk] at hscan
  rcases hscan' : scan limits.lexeme source' with e | ts'
  · rw [hscan'] at hscan
    rw [read_eq, hscan, read_eq, hscan']
    rfl
  · have hjoined : scan limits.lexeme (source ++ source') =
        .ok (ts ++ ts'.map (Located.mapLine (· + k))) := by
      rw [hscan, hscan']
      simp [joined, raiseFrom, Except.map]
    have hextended : Parser.Extended ((Cursor.ofList ts').mapLines (· + k))
        (Cursor.ofList (ts ++ [⟨.endOfInput, line⟩]))
        (Cursor.ofList (ts ++ ts'.map (Located.mapLine (· + k)))) := by
      refine ⟨ts, line, hderives.endFree, tokens_of_scan hts, ?_⟩
      rw [Cursor.Moves, tokens_of_scan hjoined, Cursor.tokens_mapLines, tokens_of_scan hscan']
    rw [read_eq, hts] at h
    rw [read_eq, hjoined, read_eq, hscan']
    show (Parser.program _ _).1 = mapResult _ _ (Parser.program _ _).1
    rw [Parser.program_extended hextended h,
      Parser.program_mapLines (natural_setting load limits stack _)]
    rcases (Parser.program (setting load limits stack) (Cursor.ofList ts')).1 with e | p'
    · rfl
    · rfl

end Program

end TableScript
