import TableScript.Proofs.Value.Printing

/-!
# Shared maps

A table is a map with one entry for each key, shared by all names that hold it.  What it has is told by what
was put into it through any of them (`Tables.Holds`): at each key the last value, and the key as it was
spelled first, in the order of the keys.  That order is total, and keys stand at one place in it exactly if
they are the same key (`Key.Ordered`).

So nothing else shows.  The pairs of a table may be kept in any order and sorted when they are asked for.
Two histories that put the same values at each key of each table, one after another, leave the same entries
and the same printed forms, however the writes to different keys are mixed.  If only the last values agree,
the entries agree up to the spelling of their keys.
-/

namespace TableScript

/-- The order of keys is total, and goes with their being the same. -/
structure Key.Ordered : Prop where
  same : Equivalence Key.Same
  lt_iff : ∀ k k' : Key, compare k k' = .lt ↔ k.Before k'
  eq_iff : ∀ k k' : Key, compare k k' = .eq ↔ k.Same k'
  gt_iff : ∀ k k' : Key, compare k k' = .gt ↔ k'.Before k
  trans : ∀ k k' k'' : Key, k.Before k' → k'.Before k'' → k.Before k''
  congr : ∀ k k' q : Key, k.Same k' → (k.Before q ↔ k'.Before q) ∧ (q.Before k ↔ q.Before k')
  undefined : ∀ x y : Float, x.isNaN → y.isNaN → Key.Same (.number x) (.number y)
  zero : Key.Same (.number 0.0) (.number (-0.0))

namespace Key

theorem ordered : Key.Ordered where
  same := {
    refl := fun _ => compare_eq_eq_iff.1 Std.ReflCmp.compare_self
    symm := fun h => compare_eq_eq_iff.1 (Std.OrientedCmp.eq_symm (compare_eq_eq_iff.2 h))
    trans := fun h h' => compare_eq_eq_iff.1
      (Std.TransCmp.eq_trans (compare_eq_eq_iff.2 h) (compare_eq_eq_iff.2 h')) }
  lt_iff _ _ := compare_eq_lt_iff
  eq_iff _ _ := compare_eq_eq_iff
  gt_iff _ _ := Std.OrientedCmp.gt_iff_lt.trans compare_eq_lt_iff
  trans _ _ _ h h' :=
    compare_eq_lt_iff.1 (Std.TransCmp.lt_trans (compare_eq_lt_iff.2 h) (compare_eq_lt_iff.2 h'))
  congr k k' q h := by
    have heq : compare k k' = .eq := compare_eq_eq_iff.2 h
    have hleft : compare k q = compare k' q := Std.TransCmp.congr_left heq
    have hright : compare q k = compare q k' := Std.TransCmp.congr_right heq
    simp only [← compare_eq_lt_iff, hleft, hright, and_self]
  undefined _ _ := .undefined
  zero := .number (by decide +kernel)

end Key

namespace Tables

/-- What a table has after values were put into it, the last one listed first. -/
structure Holds (ts : Tables) (t : TableId) (ws : List (Key × Value)) : Prop where
  /-- At each key there is the last value. -/
  get : ∀ k, ts.get t k = (latest k ws).getD .null
  /-- The entries are in the order of the keys. -/
  ascending : (ts.entries t).Pairwise fun p q => p.1.Before q.1
  /-- They are the last values under the first spellings. -/
  mem_iff : ∀ k v, (k, v) ∈ ts.entries t ↔ firstSpelling k ws = some k ∧ latest k ws = some v
  /-- There is one for each key. -/
  one : ∀ w ∈ ws, ∃! p, p ∈ ts.entries t ∧ w.1.Same p.1
  /-- They come out the same from whatever order they were kept in. -/
  sorted : ∀ kept : List (Key × Value), kept.Perm (ts.entries t) →
    kept.mergeSort Dictionary.inOrder = ts.entries t

theorem latest_isSome_of_mem {w : Key × Value} {ws : List (Key × Value)} (h : w ∈ ws) :
    (latest w.1 ws).isSome := by
  rw [latest, Option.isSome_map, List.find?_isSome]
  exact ⟨w, h, decide_eq_true (Key.ordered.same.refl w.1)⟩

/-! ### Writes to different keys -/

/-- The writes to a key. -/
def writesTo (k : Key) (ws : List (Key × Value)) : List (Key × Value) := ws.filter fun w => k.Same w.1

theorem latest_eq_writesTo (k : Key) (ws : List (Key × Value)) :
    latest k ws = (writesTo k ws).head?.map Prod.snd := by
  rw [latest, writesTo, List.head?_filter]

theorem firstSpelling_eq_writesTo (k : Key) (ws : List (Key × Value)) :
    firstSpelling k ws = (writesTo k ws).getLast?.map Prod.fst := by
  rw [firstSpelling, writesTo, ← List.head?_reverse, ← List.filter_reverse, List.head?_filter]

/-- Two writes to different keys may change places. -/
theorem writesTo_swap {w w' : Key × Value} (h : ¬ w.1.Same w'.1) (k : Key) (ws : List (Key × Value)) :
    writesTo k (w :: w' :: ws) = writesTo k (w' :: w :: ws) := by
  by_cases hw : k.Same w.1
  · have hw' : ¬ k.Same w'.1 := fun hk => h (Key.ordered.same.trans (Key.ordered.same.symm hw) hk)
    simp [writesTo, hw, hw']
  · simp only [writesTo, List.filter_cons, hw, decide_false, Bool.false_eq_true, if_false]

end Tables

namespace Holding

open Tables

theorem holds_after (past : List Request) (n : Nat) :
    (after past).tables.Holds ⟨n⟩ (writes n past) where
  get k := by
    show (Dictionary.find? k ((after past).tables.entries ⟨n⟩)).getD .null = _
    rw [find?_entries_after]
  ascending := Key.ascending_iff.1 (ascending_entries_after past ⟨n⟩)
  mem_iff := mem_entries_after_iff past n
  one w hw := by
    have hsome := latest_isSome_of_mem hw
    rw [← find?_entries_after, Dictionary.find?_eq_pair?, Option.isSome_map] at hsome
    obtain ⟨p, hp⟩ := Option.isSome_iff_exists.1 hsome
    have hmem : p ∈ (after past).tables.entries ⟨n⟩ := List.mem_of_find?_eq_some hp
    have hcompare : compare w.1 p.1 = .eq := by simpa using List.find?_some hp
    refine ⟨p, ⟨hmem, Key.compare_eq_eq_iff.1 hcompare⟩, ?_⟩
    rintro q ⟨hq, hsame⟩
    refine (ascending_entries_after past ⟨n⟩).eq_of_compare hq hmem ?_
    exact Std.TransCmp.eq_trans (Std.OrientedCmp.eq_symm (Key.compare_eq_eq_iff.2 hsame)) hcompare
  sorted _ hperm := (ascending_entries_after past ⟨n⟩).mergeSort_eq hperm

/-- A value that is put into one table changes no other. -/
theorem entries_after_insert_of_ne {past : List Request} {name : String} {k : Key} {v : Value}
    {t : TableId} (h : (after past).handle name ≠ some t) :
    (after (.insert name k v :: past)).tables.entries t = (after past).tables.entries t := by
  apply entries_after_congr
  have hne : origin name past ≠ some t.index := by
    intro heq
    rw [handle_after, heq] at h
    exact h rfl
  rw [writes, if_neg hne]

/-- The last values at the keys say what the entries are, up to the spelling of the keys. -/
theorem forall₂_entries_after {past past' : List Request} {n : Nat}
    (h : ∀ k, latest k (writes n past) = latest k (writes n past')) :
    List.Forall₂ (fun p p' => p.1.Same p'.1 ∧ p.2 = p'.2) ((after past).tables.entries ⟨n⟩)
      ((after past').tables.entries ⟨n⟩) := by
  have hfind : ∀ k, Dictionary.find? k ((after past).tables.entries ⟨n⟩) =
      Dictionary.find? k ((after past').tables.entries ⟨n⟩) := by
    intro k
    rw [find?_entries_after, find?_entries_after, h k]
  have halike := (ascending_entries_after past ⟨n⟩).forall₂_of_find?_eq (ascending_entries_after past' _) hfind
  exact halike.imp fun _ _ => And.imp_left Key.compare_eq_eq_iff.1

/-- The writes to each key say what the entries are, however they were mixed. -/
theorem entries_after_of_writesTo {past past' : List Request} {n : Nat}
    (h : ∀ k, writesTo k (writes n past) = writesTo k (writes n past')) :
    (after past).tables.entries ⟨n⟩ = (after past').tables.entries ⟨n⟩ := by
  refine (ascending_entries_after past' ⟨n⟩).ext (ascending_entries_after past ⟨n⟩) ?_
  rintro ⟨k, v⟩
  simp only [mem_entries_after_iff, latest_eq_writesTo, firstSpelling_eq_writesTo, h k]

/-- **Tables are shared maps with one entry for each key**: whatever was done with tables, a name holds the
table that was made or copied for it last, and a table has what was put into it last, through any name, at
each key.  The rest of its history, and how its entries are kept, does not show. -/
theorem tables_after_eq_history (past : List Request) :
    Key.Ordered ∧
      (∀ name, (after past).handle name = (origin name past).map TableId.mk) ∧
      (∀ n, (after past).tables.Holds ⟨n⟩ (writes n past)) ∧
      (∀ name k v t, (after past).handle name ≠ some t →
        (after (.insert name k v :: past)).tables.entries t = (after past).tables.entries t) ∧
      ∀ past',
        ((∀ n k, latest k (writes n past) = latest k (writes n past')) →
          ∀ t, List.Forall₂ (fun p p' => p.1.Same p'.1 ∧ p.2 = p'.2) ((after past).tables.entries t)
            ((after past').tables.entries t)) ∧
        ((∀ n k, writesTo k (writes n past) = writesTo k (writes n past')) →
          (∀ t, (after past).tables.entries t = (after past').tables.entries t) ∧
            ∀ v, (after past).tables.display v = (after past').tables.display v) := by
  refine ⟨Key.ordered, handle_after past, holds_after past, fun _ _ _ _ => entries_after_insert_of_ne, ?_⟩
  intro past'
  refine ⟨fun hlatest t => forall₂_entries_after (hlatest t.index), fun hwrites => ?_⟩
  have hentries : ∀ t, (after past).tables.entries t = (after past').tables.entries t :=
    fun t => entries_after_of_writesTo (hwrites t.index)
  exact ⟨hentries, display_congr (ascending_entries_after past) hentries⟩

/-- Two names share a table, and one of them has written zero to it. -/
def twoNames : List Request :=
  [.insert "first" (.number 0.0) .null, .copy "second" "first", .create "other", .create "first"]

/-- The other writes negative zero, which is the same key, and the first one a string. -/
def twoWrites : List Request :=
  [.insert "second" (.number (-0.0)) (.bool true), .insert "first" (.text "k") (.bool false)]

theorem tables_after_twoNames :
    (after (twoWrites ++ twoNames)).handle "second" = some ⟨0⟩ ∧
      (after (twoWrites ++ twoNames)).tables.get ⟨0⟩ (.number 0.0) = .bool true ∧
      (.number 0.0, .bool true) ∈ (after (twoWrites ++ twoNames)).tables.entries ⟨0⟩ ∧
      (after (.insert "second" (.bool true) .null :: (twoWrites ++ twoNames))).tables.entries ⟨1⟩ =
        (after (twoWrites ++ twoNames)).tables.entries ⟨1⟩ ∧
      List.Forall₂ (fun p p' => p.1.Same p'.1 ∧ p.2 = p'.2)
        ((after (twoWrites ++ twoNames)).tables.entries ⟨0⟩)
        ((after (twoWrites.reverse ++ twoNames)).tables.entries ⟨0⟩) ∧
      (after (twoWrites ++ twoNames)).tables.display (.table ⟨0⟩) =
        (after (twoWrites.reverse ++ twoNames)).tables.display (.table ⟨0⟩) := by
  have hwrites : ∀ n k, writesTo k (writes n (twoWrites ++ twoNames)) =
      writesTo k (writes n (twoWrites.reverse ++ twoNames)) := by
    intro n k
    cases n with
    | zero => exact writesTo_swap (by rintro ⟨⟩) k _
    | succ n => rfl
  have hlatest : latest (.number 0.0) (writes 0 (twoWrites ++ twoNames)) = some (.bool true) :=
    congrArg (Option.map Prod.snd) (List.find?_cons_of_pos (decide_eq_true Key.ordered.zero))
  have hspelling : firstSpelling (.number 0.0) (writes 0 (twoWrites ++ twoNames)) = some (.number 0.0) :=
    congrArg (Option.map Prod.fst) (List.find?_cons_of_pos (decide_eq_true (Key.ordered.same.refl _)))
  obtain ⟨-, hhandle, hholds, hother, hsame⟩ := tables_after_eq_history (twoWrites ++ twoNames)
  refine ⟨?_, ?_, ?_, ?_, ?_, ?_⟩
  · rw [hhandle]
    rfl
  · rw [(hholds 0).get, hlatest]
    rfl
  · exact ((hholds 0).mem_iff _ _).2 ⟨hspelling, hlatest⟩
  · exact hother _ _ _ _ (by rw [hhandle]; decide)
  · refine (hsame _).1 (fun n k => ?_) _
    rw [latest_eq_writesTo, latest_eq_writesTo, hwrites]
  · exact ((hsame _).2 hwrites).2 _

end Holding

end TableScript
