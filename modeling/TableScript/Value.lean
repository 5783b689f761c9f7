import TableScript.Dictionary
import TableScript.Error
import TableScript.Number.Order
import TableScript.Program

/-!
# Values

What expressions evaluate to, and which of them can be keys of tables. A table is known by its
place in a store, so two values can be the same table.
-/

namespace TableScript

/-- Which table of a store. -/
structure TableId where
  index : Nat
deriving Repr, DecidableEq

/-- The values of the language. -/
inductive Value where
  | number (x : Float)
  | text (s : String)
  | bool (b : Bool)
  | null
  | function (f : Routine)
  | table (t : TableId)

instance : Inhabited Value := ⟨.null⟩

namespace Value

/-- The kind of a value. -/
def type : Value → ValueType
  | .number _ => .number
  | .text _ => .text
  | .bool _ => .bool
  | .null => .null
  | .function _ => .function
  | .table _ => .table

/-- Whether two values are the same: numbers, strings and truth values if they are equal, functions
if they come from one literal, tables if they are one table. The undefined number is not the same as
itself. -/
protected def beq : Value → Value → Bool
  | .number x, .number y => x == y
  | .text s, .text t => s == t
  | .bool a, .bool b => a == b
  | .null, .null => true
  | .function f, .function g => f.tag == g.tag
  | .table t, .table u => t == u
  | _, _ => false

instance : BEq Value := ⟨Value.beq⟩

/-- The truth value that a condition needs. -/
def toBool : Value → Except RuntimeError Bool
  | .bool b => .ok b
  | v => .error (.expectedBool v.type)

/-- The table that an index needs. -/
def toTable : Value → Except RuntimeError TableId
  | .table t => .ok t
  | v => .error (.notIndexable v.type)

/-- The function that a call needs. -/
def toRoutine : Value → Except RuntimeError Routine
  | .function f => .ok f
  | v => .error (.notCallable v.type)

end Value

/-! ### Keys -/

/-- The values that can be keys. -/
inductive Key where
  | bool (b : Bool)
  | number (x : Float)
  | text (s : String)
deriving Repr

namespace Key

/-- Truth values come first, false before true, then numbers in their total order, then strings by
code point. -/
protected def compare : Key → Key → Ordering
  | .bool a, .bool b => compare a b
  | .bool _, _ => .lt
  | .number _, .bool _ => .gt
  | .number x, .number y => Number.compareTotal x y
  | .number _, .text _ => .lt
  | .text s, .text t => compare s t
  | .text _, _ => .gt

instance : Ord Key := ⟨Key.compare⟩

/-- The key that a value is, if it can be one. -/
def ofValue : Value → Except RuntimeError Key
  | .number x => .ok (.number x)
  | .text s => .ok (.text s)
  | .bool b => .ok (.bool b)
  | .null => .error .nullKey
  | v => .error (.invalidKey v.type)

/-- How a key is printed. -/
def display : Key → String
  | .bool b => boolText b
  | .number x => Number.text x
  | .text s => s

end Key

end TableScript
