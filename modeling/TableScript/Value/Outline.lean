import TableScript.Count
import TableScript.Value.Tables

/-!
# Outlines

Tables may hold one another in cycles, so a value is printed from its outline: the finite tree in
which a table that stands inside itself is cut off and marked. A table that merely stands in two
places is written out in both.

Drawing the outline ends because each step inward meets a table that does not enclose it yet.
-/

namespace TableScript

/-- A value with the contents of its tables, cycles cut off. -/
inductive Outline where
  | number (x : Float)
  | text (s : String)
  | bool (b : Bool)
  | null
  | function (f : Routine)
  | table (entries : List (Key × Outline))
  /-- A table that encloses this place. -/
  | cycle

namespace Tables

/-- How many tables of the store do not enclose the place that is reached. -/
def unmet (ts : Tables) (enclosing : List TableId) : Nat :=
  (List.range ts.contents.size).countP fun i => !enclosing.contains ⟨i⟩

theorem unmet_cons_lt {ts : Tables} {enclosing : List TableId} {t : TableId}
    (hsize : t.index < ts.contents.size) (hmem : enclosing.contains t = false) :
    ts.unmet (t :: enclosing) < ts.unmet enclosing := by
  refine countP_lt_countP (List.mem_range.2 hsize) ?_ ?_ ?_
  · simpa using hmem
  · simp
  · intro i hi
    simp only [List.contains_cons, Bool.not_or, Bool.and_eq_true] at hi
    exact hi.2

/-- The outline of a value inside of the tables `enclosing`. -/
def outlineIn (ts : Tables) (enclosing : List TableId) : Value → Outline
  | .number x => .number x
  | .text s => .text s
  | .bool b => .bool b
  | .null => .null
  | .function f => .function f
  | .table t =>
    if _met : enclosing.contains t then .cycle
    else if _size : t.index < ts.contents.size then
      .table ((ts.entries t).map fun (k, v) => (k, outlineIn ts (t :: enclosing) v))
    else .table []
termination_by ts.unmet enclosing
decreasing_by exact unmet_cons_lt _size (by simpa using _met)

/-- The outline of a value. -/
def outline (ts : Tables) (v : Value) : Outline := ts.outlineIn [] v

end Tables

namespace Outline

/-- How a value is printed: strings as they are, functions with their parameters, tables with their
entries in order, and a table inside of itself as a mark. -/
def display : Outline → String
  | .number x => Number.text x
  | .text s => s
  | .bool b => boolText b
  | .null => "Null"
  | .function f => "Function(" ++ ", ".intercalate f.params ++ ")"
  | .table entries => "[" ++ ", ".intercalate (displayEntries entries) ++ "]"
  | .cycle => "[...]"
where
  /-- The entries of a table, each as its key and value. -/
  displayEntries : List (Key × Outline) → List String
    | [] => []
    | (k, v) :: rest => (k.display ++ ": " ++ display v) :: displayEntries rest

end Outline

/-- How a value is printed. -/
def Tables.display (ts : Tables) (v : Value) : String := (ts.outline v).display

end TableScript
