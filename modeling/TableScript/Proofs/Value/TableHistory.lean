import TableScript.Proofs.Value.Entries
import TableScript.Proofs.Value.KeyOrder
import TableScript.Value.Tables

/-!
# Histories of tables

Tables are made, held under names and written to (`Tables.Request`), and the store is what all of this leaves
(`Holding.after`).  A history lists the requests, the last one first, and it says by itself what a reader of
the store should find:

* `origin h past` is the table that is held under a name, as the number of tables that were made before it:
  a name holds what was made or copied for it last;
* `writes n past` lists the values that were put into a table, the last one first, through whatever names;
* `latest k ws` and `firstSpelling k ws` are the last value and the first spelling among the values put at a
  key.

Neither of them looks at the store.  What is in the store is what they say (`handle_after`, `entries_after`),
so each of its tables is in ascending order of the keys (`ascending_entries_after`), with the pairs that the
history tells (`mem_entries_after_iff`).
-/

namespace TableScript

/-- Something that is done with tables, each held under a name. -/
inductive Tables.Request where
  /-- A new table is made and held under a name. -/
  | create (name : String)
  /-- The table held under a name is also held under another. -/
  | copy (name source : String)
  /-- A value is put at a key of the table held under a name, if there is one. -/
  | insert (name : String) (k : Key) (v : Value)

/-- A store, and the tables that are held under names. -/
structure Holding where
  tables : Tables := {}
  handle : String → Option TableId := fun _ => none

namespace Holding

/-- A name holds a table, or none. -/
def hold (s : Holding) (name : String) (t : Option TableId) : Holding :=
  { s with handle := fun other => if other = name then t else s.handle other }

def perform (s : Holding) : Tables.Request → Holding
  | .create name => hold { s with tables := s.tables.create.2 } name (some s.tables.create.1)
  | .copy name source => s.hold name (s.handle source)
  | .insert name k v =>
    match s.handle name with
    | some t => { s with tables := s.tables.insert t k v }
    | none => s

/-- What a history leaves, the last request listed first. -/
def after : List Tables.Request → Holding
  | [] => {}
  | request :: past => (after past).perform request

end Holding

/-! ### What a history tells -/

namespace Tables

/-- How many tables were made. -/
def creations : List Request → Nat
  | [] => 0
  | .create _ :: past => creations past + 1
  | .copy .. :: past => creations past
  | .insert .. :: past => creations past

/-- The table that is held under a name, as the number of tables made before it. -/
def origin (name : String) : List Request → Option Nat
  | [] => none
  | .create other :: past => if name = other then some (creations past) else origin name past
  | .copy other source :: past => if name = other then origin source past else origin name past
  | .insert .. :: past => origin name past

/-- What was put into a table, the last first. -/
def writes (n : Nat) : List Request → List (Key × Value)
  | [] => []
  | .create _ :: past => writes n past
  | .copy .. :: past => writes n past
  | .insert name k v :: past => if origin name past = some n then (k, v) :: writes n past else writes n past

/-- The last value that was put at a key. -/
def latest (k : Key) (ws : List (Key × Value)) : Option Value :=
  (ws.find? fun w => k.Same w.1).map Prod.snd

/-- A key as it was spelled first. -/
def firstSpelling (k : Key) (ws : List (Key × Value)) : Option Key :=
  (ws.reverse.find? fun w => k.Same w.1).map Prod.fst

theorem origin_lt {name : String} {n : Nat} {past : List Request} (h : origin name past = some n) :
    n < creations past := by
  induction past generalizing name with
  | nil => cases h
  | cons request past ih =>
    cases request with
    | create other =>
      simp only [origin, creations] at h ⊢
      split at h
      · obtain rfl := Option.some.inj h
        exact Nat.lt_succ_self _
      · exact Nat.lt_succ_of_lt (ih h)
    | copy other source =>
      simp only [origin, creations] at h ⊢
      split at h <;> exact ih h
    | insert other k v => exact ih h

/-- Nothing was put into a table that is not made yet. -/
theorem writes_of_le {n : Nat} {past : List Request} (h : creations past ≤ n) :
    writes n past = [] := by
  induction past with
  | nil => rfl
  | cons request past ih =>
    cases request with
    | create other => exact ih (Nat.le_of_succ_le h)
    | copy other source => exact ih h
    | insert other k v =>
      have hne : origin other past ≠ some n := fun heq => Nat.not_le_of_lt (origin_lt heq) h
      rw [writes, if_neg hne]
      exact ih h

end Tables

/-! ### What is in the store -/

namespace Holding

open Tables

theorem size_after (past : List Tables.Request) : (after past).tables.contents.size = creations past := by
  induction past with
  | nil => rfl
  | cons request past ih =>
    cases request with
    | create name => simp [after, perform, hold, Tables.create, creations, ih]
    | copy name source => exact ih
    | insert name k v =>
      simp only [after, perform, creations]
      cases (after past).handle name with
      | none => exact ih
      | some t => simpa [Tables.insert] using ih

/-- A name holds the table that the history tells. -/
theorem handle_after (past : List Tables.Request) (name : String) :
    (after past).handle name = (origin name past).map TableId.mk := by
  induction past generalizing name with
  | nil => rfl
  | cons request past ih =>
    cases request with
    | create other =>
      show (if name = other then some ⟨(after past).tables.contents.size⟩ else (after past).handle name) = _
      rw [origin, size_after, ih]
      split <;> rfl
    | copy other source =>
      show (if name = other then (after past).handle source else (after past).handle name) = _
      rw [origin, ih, ih]
      split <;> rfl
    | insert other k v =>
      rw [origin, ← ih]
      simp only [after, perform]
      cases (after past).handle other <;> rfl

/-- A table is the dictionary of the values that were put into it. -/
theorem table_after (past : List Tables.Request) (n : Nat) :
    (after past).tables.table ⟨n⟩ = Dictionary.ofWrites (writes n past) := by
  induction past with
  | nil => rfl
  | cons request past ih =>
    cases request with
    | create name =>
      show (after past).tables.create.2.table ⟨n⟩ = _
      rw [Tables.table_create, ih]
      rfl
    | copy name source => exact ih
    | insert name k v =>
      simp only [after, perform, writes, handle_after]
      cases horigin : origin name past with
      | none => exact ih
      | some m =>
        show ((after past).tables.insert ⟨m⟩ k v).table ⟨n⟩ = _
        by_cases hn : n < creations past
        · rw [Tables.table_insert _ _ _ (by rw [size_after]; exact hn), ih]
          by_cases hm : m = n
          · rw [if_pos (congrArg TableId.mk hm), if_pos (congrArg some hm)]
            rfl
          · rw [if_neg (fun heq => hm (TableId.mk.inj heq)), if_neg (fun heq => hm (Option.some.inj heq))]
        · -- there is no such table yet, so the name holds another one
          have hle : creations past ≤ n := Nat.le_of_not_lt hn
          have hne : m ≠ n := fun heq => hn (heq ▸ origin_lt horigin)
          rw [Tables.table_insert_of_le _ _ _ (by rw [size_after]; exact hle),
            if_neg (fun heq => hne (Option.some.inj heq)), writes_of_le hle]
          rfl

theorem entries_after (past : List Tables.Request) (n : Nat) :
    (after past).tables.entries ⟨n⟩ = (Dictionary.ofWrites (writes n past)).entries :=
  congrArg Dictionary.entries (table_after past n)

theorem ascending_entries_after (past : List Tables.Request) (t : TableId) :
    Dictionary.Ascending ((after past).tables.entries t) := by
  rw [entries_after past t.index]
  exact Dictionary.ascending_ofWrites _

/-- The entries of a table depend on nothing but what was put into it. -/
theorem entries_after_congr {past past' : List Tables.Request} {n : Nat}
    (h : writes n past = writes n past') :
    (after past).tables.entries ⟨n⟩ = (after past').tables.entries ⟨n⟩ := by
  rw [entries_after, entries_after, h]

theorem pair?_eq_find?_same (k : Key) (ws : List (Key × Value)) :
    Dictionary.pair? k ws = ws.find? fun w => k.Same w.1 := by
  refine congrArg (List.find? · ws) (funext fun w => ?_)
  rw [Bool.eq_iff_iff, beq_iff_eq, decide_eq_true_iff, Key.compare_eq_eq_iff]

theorem find?_entries_after (past : List Tables.Request) (n : Nat) (k : Key) :
    Dictionary.find? k ((after past).tables.entries ⟨n⟩) = latest k (writes n past) := by
  rw [entries_after, Dictionary.find?_ofWrites, Dictionary.find?_eq_pair?, pair?_eq_find?_same, latest]

/-- The pairs of a table: the last value at each key that was written to, under the key as it was spelled
first. -/
theorem mem_entries_after_iff (past : List Tables.Request) (n : Nat) (k : Key) (v : Value) :
    (k, v) ∈ (after past).tables.entries ⟨n⟩ ↔
      firstSpelling k (writes n past) = some k ∧ latest k (writes n past) = some v := by
  rw [(ascending_entries_after past ⟨n⟩).mem_iff, find?_entries_after, entries_after,
    Dictionary.spelling?_ofWrites, Dictionary.spelling?, pair?_eq_find?_same, firstSpelling]

end Holding

end TableScript
