import TableScript.Proofs.Value.TableHistory
import TableScript.Value.Outline

/-!
# The printed form of a value

Tables may hold one another in any way, so the rule by which a value is printed (`Prints`) carries the tables
that enclose the place where it stands.  A table that is one of them is only marked.  Any other one is
written out, with its pairs in the order of the keys, even if it was written out before at another place.

The rule says nothing about how the text is found, and it gives at most one text (`Prints.unique`).  That it
gives one for each value is what it means for printing to end: each step inward (`Tables.Inward`) adds a
table to those that enclose the place, there are finitely many, and none is entered inside of itself
(`Inward.unmet_lt`).  So the steps are well-founded, no more of them follow one another than there are tables
(`length_le_of_inward`), and `Tables.display` finds the text (`prints_display`).
-/

namespace TableScript

/-- Pairs in brackets, each as its key and the text of its value. -/
def bracketed (pairs : List (Key × Value)) (text : Value → String) : String :=
  "[" ++ ", ".intercalate (pairs.map fun p => p.1.display ++ ": " ++ text p.2) ++ "]"

/-- How a value is printed inside of the tables `enclosing`, if `pairs t` are the pairs of a table. -/
inductive Prints (pairs : TableId → List (Key × Value)) : List TableId → Value → String → Prop
  | number (enclosing : List TableId) (x : Float) : Prints pairs enclosing (.number x) (Number.text x)
  | text (enclosing : List TableId) (s : String) : Prints pairs enclosing (.text s) s
  | bool (enclosing : List TableId) (b : Bool) : Prints pairs enclosing (.bool b) (boolText b)
  | null (enclosing : List TableId) : Prints pairs enclosing .null "Null"
  | function (enclosing : List TableId) (f : Routine) :
      Prints pairs enclosing (.function f) ("Function(" ++ ", ".intercalate f.params ++ ")")
  /-- A table inside of itself is marked. -/
  | marked {enclosing : List TableId} {t : TableId} :
      t ∈ enclosing → Prints pairs enclosing (.table t) "[...]"
  /-- Any other table is written out in the order of the keys. -/
  | written {enclosing : List TableId} {t : TableId} {listed : List (Key × Value)}
      {text : Value → String} :
      t ∉ enclosing →
      listed.Perm (pairs t) →
      (listed.Pairwise fun p q => p.1.Before q.1) →
      (∀ p ∈ listed, Prints pairs (t :: enclosing) p.2 (text p.2)) →
      Prints pairs enclosing (.table t) (bracketed listed text)

theorem Key.ascending_iff {l : List (Key × Value)} :
    Dictionary.Ascending l ↔ l.Pairwise fun p q => p.1.Before q.1 :=
  ⟨fun h => h.imp Key.compare_eq_lt_iff.1, fun h => h.imp Key.compare_eq_lt_iff.2⟩

/-- A value is printed in one way only. -/
theorem Prints.unique {pairs : TableId → List (Key × Value)} {enclosing : List TableId} {v : Value}
    {s s' : String} (h : Prints pairs enclosing v s) (h' : Prints pairs enclosing v s') : s = s' := by
  induction h generalizing s' with
  | number | text | bool | null | function =>
    cases h'
    rfl
  | marked hmem =>
    cases h' with
    | marked => rfl
    | written hnot => exact absurd hmem hnot
  | @written enclosing t listed text hnot hperm hsorted _ ih =>
    cases h' with
    | marked hmem => exact absurd hmem hnot
    | @written _ _ listed' text' _ hperm' hsorted' hall' =>
      -- both list the pairs of the table, and there is one order to do it
      obtain rfl : listed' = listed := by
        refine (Key.ascending_iff.2 hsorted).eq_of_perm ?_ (hperm'.trans hperm.symm)
        exact (Key.ascending_iff.2 hsorted').pairwise_inOrder
      have hparts : listed'.map (fun p => p.1.display ++ ": " ++ text p.2) =
          listed'.map fun p => p.1.display ++ ": " ++ text' p.2 :=
        List.map_congr_left fun p hp => by rw [ih p hp (hall' p hp)]
      rw [bracketed, bracketed, hparts]

/-! ### Steps inward -/

namespace Tables

variable {ts : Tables}

/-- The step from a table to a value in it, each with the tables that enclose it. -/
inductive Inward (ts : Tables) : List TableId × Value → List TableId × Value → Prop
  | into {enclosing : List TableId} {t : TableId} {k : Key} {v : Value} :
      t ∉ enclosing → (k, v) ∈ ts.entries t → Inward ts (t :: enclosing, v) (enclosing, .table t)

theorem index_lt_of_mem_entries {t : TableId} {p : Key × Value} (h : p ∈ ts.entries t) :
    t.index < ts.contents.size := by
  by_contra hle
  rw [entries, ts.table_of_size_le (Nat.le_of_not_lt hle)] at h
  cases h

/-- A step inward leaves fewer tables to enter. -/
theorem Inward.unmet_lt {inner outer : List TableId × Value} (h : ts.Inward inner outer) :
    ts.unmet inner.1 < ts.unmet outer.1 := by
  obtain ⟨hnot, hmem⟩ := h
  exact unmet_cons_lt (index_lt_of_mem_entries hmem) (by simpa using hnot)

theorem wellFounded_inward (ts : Tables) : WellFounded ts.Inward :=
  Subrelation.wf Inward.unmet_lt (measure fun place : List TableId × Value => ts.unmet place.1).wf

/-- No more tables are entered than there are. -/
theorem length_le_of_inward {v w : Value} {enclosing : List TableId}
    (h : Relation.ReflTransGen ts.Inward (enclosing, w) ([], v)) :
    enclosing.length ≤ ts.contents.size := by
  have hroom : ∀ place, Relation.ReflTransGen ts.Inward place ([], v) →
      place.1.length + ts.unmet place.1 ≤ ts.contents.size := by
    intro place hplace
    induction hplace using Relation.ReflTransGen.head_induction_on with
    | refl =>
      show 0 + ts.unmet [] ≤ _
      rw [Nat.zero_add]
      exact List.countP_le_length.trans (Nat.le_of_eq List.length_range)
    | head hstep _ ih =>
      have hlt := hstep.unmet_lt
      cases hstep
      simp only [List.length_cons] at hlt ih ⊢
      omega
  exact Nat.le_of_add_right_le (hroom _ h)

/-! ### The text -/

theorem displayEntries_eq_map (entries : List (Key × Outline)) :
    Outline.display.displayEntries entries =
      entries.map fun p => p.1.display ++ ": " ++ p.2.display := by
  induction entries with
  | nil => rfl
  | cons entry rest ih => rw [Outline.display.displayEntries, ih, List.map_cons]

/-- The text of a table that does not enclose its place; it has no pairs if it is not in the store. -/
theorem display_outlineIn_table {enclosing : List TableId} {t : TableId} (h : t ∉ enclosing) :
    (ts.outlineIn enclosing (.table t)).display =
      bracketed (ts.entries t) fun v => (ts.outlineIn (t :: enclosing) v).display := by
  rw [outlineIn, dif_neg (by simpa using h)]
  split
  · rw [Outline.display, displayEntries_eq_map, List.map_map]
    rfl
  · next hsize =>
    rw [entries, ts.table_of_size_le (Nat.le_of_not_lt hsize)]
    rfl

/-- A value is printed by the rule, at any place. -/
theorem prints_outlineIn (hts : ∀ t, Dictionary.Ascending (ts.entries t)) (enclosing : List TableId)
    (v : Value) : Prints ts.entries enclosing v (ts.outlineIn enclosing v).display := by
  -- the induction is on the steps inward
  generalize hplace : (enclosing, v) = place
  induction place using ts.wellFounded_inward.induction generalizing enclosing v with
  | _ place ih =>
    subst hplace
    cases v with
    | number x => rw [outlineIn]; exact .number enclosing x
    | text s => rw [outlineIn]; exact .text enclosing s
    | bool b => rw [outlineIn]; exact .bool enclosing b
    | null => rw [outlineIn]; exact .null enclosing
    | function f => rw [outlineIn]; exact .function enclosing f
    | table t =>
      by_cases hmem : t ∈ enclosing
      · rw [outlineIn, dif_pos (by simpa using hmem)]
        exact .marked hmem
      · rw [display_outlineIn_table hmem]
        refine .written hmem (.refl _) (Key.ascending_iff.1 (hts t)) ?_
        intro p hp
        exact ih _ (.into hmem hp) _ _ rfl

theorem prints_display (hts : ∀ t, Dictionary.Ascending (ts.entries t)) (v : Value) :
    Prints ts.entries [] v (ts.display v) :=
  prints_outlineIn hts [] v

/-- Two stores whose tables have the same pairs print alike. -/
theorem display_congr {ts' : Tables} (hts : ∀ t, Dictionary.Ascending (ts.entries t))
    (h : ∀ t, ts.entries t = ts'.entries t) (v : Value) : ts.display v = ts'.display v := by
  have hentries : ts.entries = ts'.entries := funext h
  have hprints := prints_display hts v
  rw [hentries] at hprints hts
  exact hprints.unique (prints_display hts v)

/-- **Printing ends and marks exactly the cycles**: whatever was done with tables before, no more of them are
entered one inside another than there are, and the text of a value is the one by the rule: a table is
written as a mark if it is one of those that enclose its place, and in full, in the order of the keys, if
it is not. -/
theorem display_eq_iff_prints (past : List Request) :
    WellFounded (Holding.after past).tables.Inward ∧
      (∀ v enclosing w, Relation.ReflTransGen (Holding.after past).tables.Inward (enclosing, w) ([], v) →
        enclosing.length ≤ (Holding.after past).tables.contents.size) ∧
      ∀ v text, (Holding.after past).tables.display v = text ↔
        Prints (Holding.after past).tables.entries [] v text := by
  have hprints := prints_display (Holding.ascending_entries_after past)
  refine ⟨wellFounded_inward _, fun _ _ _ => length_le_of_inward, fun v text => ⟨?_, ?_⟩⟩
  · rintro rfl
    exact hprints v
  · intro h
    exact (hprints v).unique h

/-- Two tables that hold one another, one of them also itself, and the other twice. -/
def entangled : List Request :=
  [.insert "inner" (.text "up") (.table ⟨1⟩), .insert "outer" (.text "self") (.table ⟨1⟩),
    .insert "outer" (.text "right") (.table ⟨0⟩), .insert "outer" (.text "left") (.table ⟨0⟩),
    .create "outer", .insert "inner" (.bool true) .null, .create "inner"]

theorem display_entangled :
    Relation.ReflTransGen (Holding.after entangled).tables.Inward ([⟨1⟩], .table ⟨0⟩) ([], .table ⟨1⟩) ∧
      [(⟨1⟩ : TableId)].length ≤ (Holding.after entangled).tables.contents.size ∧
      Prints (Holding.after entangled).tables.entries [] (.table ⟨1⟩)
        "[left: [True: Null, up: [...]], right: [True: Null, up: [...]], self: [...]]" := by
  have hinward : (Holding.after entangled).tables.Inward ([⟨1⟩], .table ⟨0⟩) ([], .table ⟨1⟩) :=
    .into (k := .text "left") List.not_mem_nil (by
      show _ ∈ [(Key.text "left", Value.table ⟨0⟩), (.text "right", .table ⟨0⟩), (.text "self", .table ⟨1⟩)]
      exact List.mem_cons_self)
  obtain ⟨-, hlength, htext⟩ := display_eq_iff_prints entangled
  exact ⟨.single hinward, hlength _ _ _ (.single hinward), (htext _ _).1 (by decide +kernel)⟩

end Tables

end TableScript
