import TableScript.Value

/-!
# The store of tables

All tables live in one store. A value holds only the place of its table, so every holder of the
place sees what any of them writes.
-/

namespace TableScript

/-- The entries of one table. -/
abbrev Table := Dictionary Key Value

/-- A store of tables. -/
structure Tables where
  contents : Array Table := #[]

namespace Tables

/-- Adds an empty table. -/
def create (ts : Tables) : TableId × Tables := (⟨ts.contents.size⟩, ⟨ts.contents.push {}⟩)

/-- The table at a place. -/
def table (ts : Tables) (t : TableId) : Table := ts.contents.getD t.index {}

/-- The value at a key of a table; null if there is none. -/
def get (ts : Tables) (t : TableId) (k : Key) : Value := ((ts.table t).get? k).getD .null

/-- Puts a value at a key of a table. -/
def insert (ts : Tables) (t : TableId) (k : Key) (v : Value) : Tables :=
  ⟨ts.contents.modify t.index (·.insert k v)⟩

/-- The entries of a table in ascending order of their keys. -/
def entries (ts : Tables) (t : TableId) : List (Key × Value) := (ts.table t).entries

/-! What is at a place.  A place where no table was made yet has an empty one. -/

theorem table_of_size_le (ts : Tables) {t : TableId} (h : ts.contents.size ≤ t.index) :
    ts.table t = {} := by
  rw [table, Array.getD_eq_getD_getElem?, Array.getElem?_eq_none h]
  rfl

/-- A new table is empty, as the ones that are not made yet, and the others stay as they are. -/
theorem table_create (ts : Tables) (t : TableId) : ts.create.2.table t = ts.table t := by
  rcases Nat.lt_trichotomy t.index ts.contents.size with hlt | heq | hgt
  · simp only [create, table, Array.getD_eq_getD_getElem?, Array.getElem?_push_lt hlt,
      Array.getElem?_eq_getElem hlt]
  · rw [ts.table_of_size_le (Nat.le_of_eq heq.symm)]
    simp [create, table, Array.getD_eq_getD_getElem?, heq]
  · have hsize : ts.create.2.contents.size ≤ t.index := by
      rw [create, Array.size_push]
      exact hgt
    rw [ts.table_of_size_le (Nat.le_of_lt hgt), table_of_size_le _ hsize]

section Insert

variable {ts : Tables} {u : TableId} (t : TableId) (k : Key) (v : Value)

theorem size_insert : (ts.insert t k v).contents.size = ts.contents.size := Array.size_modify

theorem table_insert (hu : u.index < ts.contents.size) :
    (ts.insert t k v).table u = if t = u then (ts.table u).insert k v else ts.table u := by
  obtain ⟨i⟩ := t
  obtain ⟨j⟩ := u
  simp only [insert, table, Array.getD_eq_getD_getElem?, Array.getElem?_modify, TableId.mk.injEq]
  have hj : ts.contents[j]? = some ts.contents[j] := Array.getElem?_eq_getElem hu
  split
  · simp [hj]
  · rfl

theorem table_insert_of_le (hu : ts.contents.size ≤ u.index) : (ts.insert t k v).table u = {} :=
  table_of_size_le _ (by rwa [size_insert])

end Insert

end Tables

end TableScript
