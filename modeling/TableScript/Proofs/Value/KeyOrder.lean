import Mathlib.Data.Char
import Mathlib.Data.List.Lex
import TableScript.Proofs.Value.NumberOrder
import TableScript.Value

/-!
# The order of keys

Keys are compared by one function, which decides both which keys are the same and which comes first.  What
it decides is said here without it.  Keys are the same (`Key.Same`) if they are the same truth value, equal
numbers or both the undefined number, or the same string.  One comes before another (`Key.Before`) if it is
of an earlier kind, or of the same kind and less: for numbers in the usual sense, with the undefined number
last, and for strings byte by byte.

The comparison goes by code points.  UTF-8 keeps their order, since a code point of more bytes starts with a
greater byte and the digits of a code point come in order (`Encoded.append_lt`).  So it is also the order of
the bytes (`compare_eq_lt_iff_utf8`).

It is a total order (`Std.TransOrd Key`), up to sameness.
-/

namespace TableScript

/-! ### Strings by bytes -/

/-- The bytes of a string. -/
def utf8 (s : String) : List UInt8 := s.toUTF8.data.toList

/-- The bytes of a code point: one byte, or a leading one that says how many there are and then digits of
six bits each. -/
inductive Encoded (v : Nat) : List UInt8 → Prop
  | one {b : UInt8} : v ≤ 127 → b.toNat = v → Encoded v [b]
  | two {b₁ b : UInt8} : 128 ≤ v → v ≤ 2047 → b₁.toNat = v / 64 + 192 → b.toNat = v % 64 + 128 →
      Encoded v [b₁, b]
  | three {b₂ b₁ b : UInt8} : 2048 ≤ v → v ≤ 65535 → b₂.toNat = v / 4096 + 224 →
      b₁.toNat = v / 64 % 64 + 128 → b.toNat = v % 64 + 128 → Encoded v [b₂, b₁, b]
  | four {b₃ b₂ b₁ b : UInt8} : 65536 ≤ v → b₃.toNat = v / 262144 + 240 →
      b₂.toNat = v / 4096 % 64 + 128 → b₁.toNat = v / 64 % 64 + 128 → b.toNat = v % 64 + 128 →
      Encoded v [b₃, b₂, b₁, b]

theorem encoded_utf8EncodeChar (c : Char) : Encoded c.val.toNat (String.utf8EncodeChar c) := by
  have hvalid : c.val.toNat < 0xd800 ∨ 0xdfff < c.val.toNat ∧ c.val.toNat < 0x110000 := c.valid
  have hbyte {n : Nat} (h : n < 256) : (UInt8.ofNat n).toNat = n := UInt8.toNat_ofNat_of_lt' h
  simp only [String.utf8EncodeChar]
  generalize c.val.toNat = v at hvalid
  split_ifs with hone htwo hthree
  · exact .one hone (hbyte (by omega))
  · refine .two (by omega) htwo ?_ ?_ <;> rw [hbyte (by omega)]
    omega
  · refine .three (by omega) hthree ?_ ?_ ?_ <;> rw [hbyte (by omega)]
    omega
  · refine .four (by omega) ?_ ?_ ?_ ?_ <;> rw [hbyte (by omega)]
    omega

/-- The first digit in which two numbers differ says which is less. -/
theorem digits_lt {m n : Nat} (h : m < n) :
    m / 262144 < n / 262144 ∨ m / 262144 = n / 262144 ∧
      (m / 4096 % 64 < n / 4096 % 64 ∨ m / 4096 % 64 = n / 4096 % 64 ∧
        (m / 64 % 64 < n / 64 % 64 ∨ m / 64 % 64 = n / 64 % 64 ∧ m % 64 < n % 64)) := by
  have hdigit {m n : Nat} (h : m < n) : m / 64 < n / 64 ∨ m / 64 = n / 64 ∧ m % 64 < n % 64 := by
    omega
  rcases hdigit h with h | ⟨_, h⟩
  · rcases hdigit h with h | ⟨_, h⟩
    · rcases hdigit h with h | ⟨_, h⟩ <;> omega
    · omega
  · omega

/-- A lesser code point has the lesser bytes, whatever comes behind them. -/
theorem Encoded.append_lt {m n : Nat} {as bs : List UInt8} (ha : Encoded m as) (hb : Encoded n bs)
    (h : m < n) (as' bs' : List UInt8) : as ++ as' < bs ++ bs' := by
  have hdigits := digits_lt h
  -- with different numbers of bytes the first one decides, else the first digit that differs
  cases ha <;> cases hb <;>
    simp only [List.cons_append, List.cons_lt_cons_iff, UInt8.lt_iff_toNat_lt, ← UInt8.toNat_inj] <;>
    omega

theorem flatMap_utf8EncodeChar_lt {cs ds : List Char} (h : cs < ds) :
    cs.flatMap String.utf8EncodeChar < ds.flatMap String.utf8EncodeChar := by
  induction cs generalizing ds with
  | nil =>
    cases ds with
    | nil => cases h
    | cons d ds =>
      have hd := encoded_utf8EncodeChar d
      rw [List.flatMap_cons]
      generalize String.utf8EncodeChar d = bs at hd
      cases hd <;> exact List.nil_lt_cons _ _
  | cons c cs ih =>
    cases ds with
    | nil => cases h
    | cons d ds =>
      rw [List.flatMap_cons, List.flatMap_cons]
      rcases List.cons_lt_cons_iff.1 h with hcd | ⟨rfl, hrest⟩
      · exact (encoded_utf8EncodeChar c).append_lt (encoded_utf8EncodeChar d) hcd _ _
      · exact List.append_left_lt (ih hrest)

theorem utf8_eq (s : String) : utf8 s = s.toList.flatMap String.utf8EncodeChar := by
  show s.toByteArray.data.toList = _
  rw [← String.utf8Encode_toList, List.utf8Encode, List.data_toByteArray]

/-- Strings are compared byte by byte. -/
theorem compare_eq_lt_iff_utf8 (s t : String) : compare s t = .lt ↔ utf8 s < utf8 t := by
  show compareOfLessAndEq s t = .lt ↔ _
  rw [compareOfLessAndEq_eq_lt, String.lt_iff, utf8_eq, utf8_eq]
  refine ⟨flatMap_utf8EncodeChar_lt, fun h => ?_⟩
  rcases lt_trichotomy s.toList t.toList with hlt | heq | hgt
  · exact hlt
  · rw [heq] at h
    exact absurd h (List.lt_irrefl _)
  · exact absurd h (List.lt_asymm (flatMap_utf8EncodeChar_lt hgt))

/-! ### Keys -/

namespace Key

/-- Keys that are one key, maybe in different spellings. -/
inductive Same : Key → Key → Prop
  | bool (b : Bool) : Same (.bool b) (.bool b)
  | number {x y : Float} : (x == y) = true → Same (.number x) (.number y)
  | undefined {x y : Float} : x.isNaN → y.isNaN → Same (.number x) (.number y)
  | text (s : String) : Same (.text s) (.text s)

/-- The first key comes before the second. -/
inductive Before : Key → Key → Prop
  | bool : Before (.bool false) (.bool true)
  | boolNumber (b : Bool) (x : Float) : Before (.bool b) (.number x)
  | boolText (b : Bool) (s : String) : Before (.bool b) (.text s)
  | number {x y : Float} : x < y → Before (.number x) (.number y)
  | undefined {x y : Float} : ¬ x.isNaN → y.isNaN → Before (.number x) (.number y)
  | numberText (x : Float) (s : String) : Before (.number x) (.text s)
  | text {s t : String} : utf8 s < utf8 t → Before (.text s) (.text t)

instance : Std.OrientedOrd Key where
  eq_swap {k k'} := by
    cases k <;> cases k'
    case bool.bool a b => exact (Std.OrientedCmp.eq_swap : compare a b = (compare b a).swap)
    case number.number x y =>
      exact (Std.OrientedCmp.eq_swap :
        compare (Number.rank x) (Number.rank y) = (compare (Number.rank y) (Number.rank x)).swap)
    case text.text s t => exact (Std.OrientedCmp.eq_swap : compare s t = (compare t s).swap)
    all_goals rfl

instance : Std.TransOrd Key where
  isLE_trans {k k' k''} h h' := by
    cases k <;> cases k' <;> cases k''
    case bool.bool.bool a b c =>
      exact (Std.TransCmp.isLE_trans : (compare a b).isLE → (compare b c).isLE → _) h h'
    case number.number.number x y z =>
      exact (Std.TransCmp.isLE_trans : (compare (Number.rank x) (Number.rank y)).isLE →
        (compare (Number.rank y) (Number.rank z)).isLE → _) h h'
    case text.text.text s t u =>
      exact (Std.TransCmp.isLE_trans : (compare s t).isLE → (compare t u).isLE → _) h h'
    -- otherwise the order of the kinds decides
    all_goals first | rfl | exact Bool.noConfusion h | exact Bool.noConfusion h'

theorem compare_eq_eq_iff {k k' : Key} : compare k k' = .eq ↔ k.Same k' := by
  constructor
  · intro h
    cases k with
    | bool a =>
      cases k' with
      | bool b =>
        obtain rfl : a = b := Std.LawfulEqOrd.eq_of_compare h
        exact .bool a
      | number | text => cases h
    | number x =>
      cases k' with
      | number y =>
        rcases Number.compareTotal_eq_eq_iff.1 h with ⟨hx, hy⟩ | hxy
        · exact .undefined hx hy
        · exact .number hxy
      | bool | text => cases h
    | text s =>
      cases k' with
      | text t =>
        obtain rfl : s = t := Std.LawfulEqOrd.eq_of_compare h
        exact .text s
      | bool | number => cases h
  · intro h
    cases h with
    | bool b => exact (Std.ReflCmp.compare_self : compare b b = .eq)
    | number hxy => exact Number.compareTotal_eq_eq_iff.2 (.inr hxy)
    | undefined hx hy => exact Number.compareTotal_eq_eq_iff.2 (.inl ⟨hx, hy⟩)
    | text s => exact (Std.ReflCmp.compare_self : compare s s = .eq)

theorem compare_eq_lt_iff {k k' : Key} : compare k k' = .lt ↔ k.Before k' := by
  constructor
  · intro h
    cases k with
    | bool a =>
      cases k' with
      | bool b =>
        obtain ⟨rfl, rfl⟩ : a = false ∧ b = true := by
          revert h
          cases a <;> cases b <;> decide
        exact .bool
      | number y => exact .boolNumber a y
      | text t => exact .boolText a t
    | number x =>
      cases k' with
      | bool b => cases h
      | number y =>
        rcases Number.compareTotal_eq_lt_iff.1 h with hlt | ⟨hx, hy⟩
        · exact .number hlt
        · exact .undefined hx hy
      | text t => exact .numberText x t
    | text s =>
      cases k' with
      | bool | number => cases h
      | text t => exact .text ((compare_eq_lt_iff_utf8 s t).1 h)
  · intro h
    cases h with
    | bool | boolNumber | boolText | numberText => rfl
    | number hlt => exact Number.compareTotal_eq_lt_iff.2 (.inl hlt)
    | undefined hx hy => exact Number.compareTotal_eq_lt_iff.2 (.inr ⟨hx, hy⟩)
    | text hlt => exact (compare_eq_lt_iff_utf8 _ _).2 hlt

instance : DecidableRel Same := fun _ _ => decidable_of_iff _ compare_eq_eq_iff

end Key

end TableScript
