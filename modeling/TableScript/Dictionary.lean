/-!
# Dictionaries

A map from keys to values, kept as a list of pairs in ascending order of the keys. Keys that compare
as equal are one key, in the spelling in which it came first.
-/

namespace TableScript

/-- A map with ordered keys. -/
structure Dictionary (κ α : Type) where
  entries : List (κ × α) := []
deriving Repr

namespace Dictionary

variable {κ α : Type} [Ord κ]

/-- The value at a key in a list of pairs. -/
def find? (k : κ) : List (κ × α) → Option α
  | [] => none
  | (k', v) :: rest =>
    match compare k k' with
    | .eq => some v
    | _ => find? k rest

/-- Puts a value at a key into a list of pairs in ascending order. -/
def place (k : κ) (v : α) : List (κ × α) → List (κ × α)
  | [] => [(k, v)]
  | (k', v') :: rest =>
    match compare k k' with
    | .lt => (k, v) :: (k', v') :: rest
    | .eq => (k', v) :: rest
    | .gt => (k', v') :: place k v rest

/-- The value at a key. -/
def get? (d : Dictionary κ α) (k : κ) : Option α := find? k d.entries

/-- Whether there is a value at a key. -/
def contains (d : Dictionary κ α) (k : κ) : Bool := (d.get? k).isSome

/-- Puts a value at a key, in place of the value that was there. -/
def insert (d : Dictionary κ α) (k : κ) (v : α) : Dictionary κ α := ⟨place k v d.entries⟩

/-! ### What a key holds after a value was put at another -/

theorem find?_place [Std.TransOrd κ] (k q : κ) (v : α) (l : List (κ × α)) :
    find? q (place k v l) = if compare q k = .eq then some v else find? q l := by
  induction l with
  | nil => cases hq : compare q k <;> simp [place, find?, hq]
  | cons entry rest ih =>
    obtain ⟨k', v'⟩ := entry
    rcases hk : compare k k' with - | - | -
    · cases hq : compare q k <;> simp [place, find?, hk, hq]
    · -- the key is there already, in a spelling that compares as equal
      have hcongr : compare q k = compare q k' := Std.TransCmp.congr_right hk
      cases hq : compare q k' <;> simp [place, find?, hk, hcongr, hq]
    · have hskip : compare q k = .eq → compare q k' = .gt := by
        intro hq
        rw [← hk]
        exact Std.TransCmp.congr_left hq
      cases hq : compare q k with
      | eq => simp [place, find?, hk, hskip hq, ih, hq]
      | lt | gt => simp [place, find?, hk, ih, hq]

theorem get?_insert [Std.TransOrd κ] (d : Dictionary κ α) (k q : κ) (v : α) :
    (d.insert k v).get? q = if compare q k = .eq then some v else d.get? q :=
  find?_place k q v d.entries

/-- Putting a value at a key adds that key and no other. -/
theorem contains_insert [Std.TransOrd κ] [Std.LawfulEqOrd κ] {d : Dictionary κ α} {k q : κ}
    {v : α} : (d.insert k v).contains q ↔ q = k ∨ d.contains q := by
  rw [contains, get?_insert]
  by_cases hq : q = k
  · simp [hq]
  · have hne : compare q k ≠ .eq := fun h => hq (Std.LawfulEqOrd.eq_of_compare h)
    simp [hq, hne, contains]

end Dictionary

end TableScript
