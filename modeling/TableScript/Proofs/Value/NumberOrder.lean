import Mathlib.Data.Int.Order.Basic
import Mathlib.Data.Nat.Basic
import Mathlib.Order.Compare
import TableScript.Number.Order

/-!
# The total order on numbers

The total order is read off the bits of a number, and it has to say the same as the usual comparisons of
numbers wherever these say something.  Between the two stands the unpacked form of a number, a sign with a
significand and an exponent, which the usual comparisons are made on.  `place` gives each unpacked number
its place among the integers; without the sign, the bits of a number are that place already
(`rank_eq_place`).  Significands and exponents that come from bits are within bounds (`InRange`), and then
the place orders numbers as their exponents do, and their significands where these are the same
(`compare_eq_compare_place`).

So two numbers are at the same place if they are equal or both undefined (`compareTotal_eq_eq_iff`), and a
number comes before another if it is less, or if only the other is undefined (`compareTotal_eq_lt_iff`).
-/

namespace TableScript.Number

open Float.Model

/-! ### Bits and unpacked numbers -/

/-- The sign of a number with the bits `n`. -/
def signOf (n : Nat) : UnpackedFloat.Sign :=
  if n < 9223372036854775808 then .positive else .negative

/-- What the bits `n` are unpacked to.  The fields are 52 bits of the significand, 11 bits of the exponent
and the sign. -/
inductive Unpacks (n : Nat) : UnpackedFloat → Prop
  | infinity : n / 4503599627370496 % 2048 = 2047 → n % 4503599627370496 = 0 →
      Unpacks n (.infinity (signOf n))
  | notANumber : n / 4503599627370496 % 2048 = 2047 → n % 4503599627370496 ≠ 0 → Unpacks n .notANumber
  | zero : n / 4503599627370496 % 2048 = 0 → n % 4503599627370496 = 0 → Unpacks n (.zero (signOf n))
  | short {m : Nat} (hm : 0 < m) : n / 4503599627370496 % 2048 = 0 → m = n % 4503599627370496 →
      Unpacks n (.finite (signOf n) m (-1074) hm)
  | full {m : Nat} {e : Int} (hm : 0 < m) : n / 4503599627370496 % 2048 ≠ 0 →
      n / 4503599627370496 % 2048 ≠ 2047 → m = 4503599627370496 + n % 4503599627370496 →
      e = ((n / 4503599627370496 % 2048 : Nat) : Int) - 1075 → Unpacks n (.finite (signOf n) m e hm)

section Fields

variable (b : BitVec Format.binary64.numBits)

theorem toNat_mantissa : (UnpackedFloat.unpackMantissa b).toNat = b.toNat % 4503599627370496 := by
  simp [UnpackedFloat.unpackMantissa]

theorem toNat_exponent :
    (UnpackedFloat.unpackExponent b).toNat = b.toNat / 4503599627370496 % 2048 := by
  simp [UnpackedFloat.unpackExponent, Nat.shiftRight_eq_div_pow]

theorem mantissa_eq_zero_iff :
    UnpackedFloat.unpackMantissa b = BitVec.ofNat Format.binary64.mantissaBitsWithoutImplicit 0 ↔
      b.toNat % 4503599627370496 = 0 := by
  rw [← BitVec.toNat_inj, toNat_mantissa]
  rfl

theorem exponent_eq_zero_iff :
    UnpackedFloat.unpackExponent b = BitVec.ofNat Format.binary64.exponentBits 0 ↔
      b.toNat / 4503599627370496 % 2048 = 0 := by
  rw [← BitVec.toNat_inj, toNat_exponent]
  rfl

theorem exponent_eq_ones_iff :
    UnpackedFloat.unpackExponent b = -BitVec.ofNat Format.binary64.exponentBits 1 ↔
      b.toNat / 4503599627370496 % 2048 = 2047 := by
  rw [← BitVec.toNat_inj, toNat_exponent]
  rfl

theorem ofBitVec_sign :
    UnpackedFloat.Sign.ofBitVec (UnpackedFloat.unpackSign b) = signOf b.toNat := by
  have hlt : b.toNat < 18446744073709551616 := b.isLt
  have hsign : (UnpackedFloat.unpackSign b).toNat = b.toNat / 9223372036854775808 % 2 := by
    show (b.extractLsb' 63 1).toNat = _
    rw [BitVec.extractLsb'_toNat, Nat.shiftRight_eq_div_pow]
  unfold UnpackedFloat.Sign.ofBitVec signOf
  refine if_congr ?_ rfl rfl
  rw [← BitVec.toNat_inj, hsign]
  show _ = 0 ↔ _
  omega

theorem toNat_one_append :
    (1#1 ++ UnpackedFloat.unpackMantissa b).toNat =
      4503599627370496 + b.toNat % 4503599627370496 := by
  rw [BitVec.toNat_append, ← Nat.shiftLeft_add_eq_or_of_lt (UnpackedFloat.unpackMantissa b).isLt,
    toNat_mantissa]
  rfl

theorem unpacks_unpack : Unpacks b.toNat (UnpackedFloat.unpack Format.binary64 b) := by
  unfold UnpackedFloat.unpack
  dsimp only
  rw [ofBitVec_sign]
  by_cases hones : UnpackedFloat.unpackExponent b = -BitVec.ofNat Format.binary64.exponentBits 1
  · rw [if_pos hones]
    have hones' := (exponent_eq_ones_iff b).1 hones
    split
    · next hfraction => exact .infinity hones' ((mantissa_eq_zero_iff b).1 hfraction)
    · next hfraction => exact .notANumber hones' (mt (mantissa_eq_zero_iff b).2 hfraction)
  · rw [if_neg hones]
    have hones' := mt (exponent_eq_ones_iff b).2 hones
    by_cases hexponent : UnpackedFloat.unpackExponent b = BitVec.ofNat Format.binary64.exponentBits 0
    · rw [if_pos hexponent]
      have hexponent' := (exponent_eq_zero_iff b).1 hexponent
      by_cases hfraction :
          UnpackedFloat.unpackMantissa b = BitVec.ofNat Format.binary64.mantissaBitsWithoutImplicit 0
      · rw [dif_pos hfraction]
        exact .zero hexponent' ((mantissa_eq_zero_iff b).1 hfraction)
      · rw [dif_neg hfraction]
        have hleast : ((UnpackedFloat.unpackExponent b).toNat : Int) -
            (Format.binary64.exponentBias + Format.binary64.mantissaBitsWithoutImplicit) + 1 = -1074 := by
          rw [hexponent]
          rfl
        rw [hleast]
        exact .short _ hexponent' (toNat_mantissa b)
    · rw [if_neg hexponent]
      have hexponent' := mt (exponent_eq_zero_iff b).2 hexponent
      refine .full _ hexponent' hones' (toNat_one_append b) ?_
      rw [toNat_exponent]
      rfl

end Fields

/-! ### Places -/

/-- The place of an unpacked number: the undefined number is last, and the infinities come before and behind
the finite numbers. -/
def place : UnpackedFloat → Int
  | .notANumber => 9223372036854775808
  | .infinity s => s.apply 9218868437227405312
  | .zero _ => 0
  | .finite s m e _ => s.apply (m + (e + 1074) * 4503599627370496)

/-- The bounds on significands and exponents: a significand is short only if the exponent is the least. -/
def InRange : UnpackedFloat → Prop
  | .notANumber | .infinity _ | .zero _ => True
  | .finite _ m e _ =>
    m < 9007199254740992 ∧ -1074 ≤ e ∧ e ≤ 971 ∧ (4503599627370496 ≤ m ∨ e = -1074)

theorem place_notANumber : place .notANumber = 9223372036854775808 := rfl

theorem place_infinity (s : UnpackedFloat.Sign) :
    place (.infinity s) = s.apply 9218868437227405312 := rfl

theorem place_zero (s : UnpackedFloat.Sign) : place (.zero s) = 0 := rfl

theorem place_finite (s : UnpackedFloat.Sign) (m : Nat) (e : Int) (hm : 0 < m) :
    place (.finite s m e hm) = s.apply (m + (e + 1074) * 4503599627370496) := rfl

theorem inRange_finite {s : UnpackedFloat.Sign} {m : Nat} {e : Int} {hm : 0 < m} :
    InRange (.finite s m e hm) ↔
      m < 9007199254740992 ∧ -1074 ≤ e ∧ e ≤ 971 ∧ (4503599627370496 ≤ m ∨ e = -1074) := Iff.rfl

theorem signOf_apply (n : Nat) (i : Int) :
    (signOf n).apply i = if n < 9223372036854775808 then i else -i := by
  unfold signOf
  split <;> rfl

theorem Unpacks.inRange {n : Nat} {u : UnpackedFloat} (h : Unpacks n u) : InRange u := by
  cases h with
  | infinity | notANumber | zero => trivial
  | short hm hexponent hfraction => refine ⟨?_, ?_, ?_, ?_⟩ <;> omega
  | full hm hexponent hones hfraction he => refine ⟨?_, ?_, ?_, ?_⟩ <;> omega

theorem inRange_unpack (x : Float) : InRange x.toModel.unpack :=
  (unpacks_unpack x.toBits.toBitVec).inRange

/-- A number is where its bits say. -/
theorem rank_eq_place (x : Float) : rank x = place x.toModel.unpack := by
  have hlt : x.toBits.toNat < 18446744073709551616 := x.toBits.toBitVec.isLt
  have hunpacks : Unpacks x.toBits.toNat x.toModel.unpack := unpacks_unpack x.toBits.toBitVec
  have hrank : rank x =
      if 9218868437227405312 < x.toBits.toNat % 9223372036854775808 then 9223372036854775808
      else if x.toBits.toNat < 9223372036854775808 then
        ((x.toBits.toNat % 9223372036854775808 : Nat) : Int)
      else -((x.toBits.toNat % 9223372036854775808 : Nat) : Int) := rfl
  rw [hrank]
  generalize x.toBits.toNat = n, x.toModel.unpack = u at hlt hunpacks
  cases hunpacks with
  | infinity hones hfraction =>
    rw [place_infinity, signOf_apply, if_neg (by omega)]
    split <;> omega
  | notANumber hones hfraction => exact if_pos (by omega)
  | zero hexponent hfraction =>
    rw [place_zero, if_neg (by omega)]
    split <;> omega
  | short hm hexponent hfraction =>
    rw [place_finite, signOf_apply, if_neg (by omega)]
    split <;> omega
  | full hm hexponent hones hfraction he =>
    rw [place_finite, signOf_apply, if_neg (by omega)]
    split <;> omega

/-! ### Comparing places -/

/-- Without the sign, numbers are ordered by their exponents first. -/
theorem compare_magnitude {m₁ m₂ : Nat} {e₁ e₂ : Int}
    (h₁ : m₁ < 9007199254740992 ∧ -1074 ≤ e₁ ∧ e₁ ≤ 971 ∧ (4503599627370496 ≤ m₁ ∨ e₁ = -1074))
    (h₂ : m₂ < 9007199254740992 ∧ -1074 ≤ e₂ ∧ e₂ ≤ 971 ∧ (4503599627370496 ≤ m₂ ∨ e₂ = -1074)) :
    (compare e₁ e₂).then (compare m₁ m₂) =
      compare (m₁ + (e₁ + 1074) * 4503599627370496) (m₂ + (e₂ + 1074) * 4503599627370496) := by
  rcases lt_trichotomy e₁ e₂ with he | rfl | he
  · rw [compare_lt_iff_lt.2 he, Ordering.lt_then, compare_lt_iff_lt.2 (by omega)]
  · rcases lt_trichotomy m₁ m₂ with hm | rfl | hm
    · rw [compare_lt_iff_lt.2 hm, compare_eq_iff_eq.2 rfl, compare_lt_iff_lt.2 (by omega)]
      rfl
    · rw [compare_eq_iff_eq.2 rfl, compare_eq_iff_eq.2 rfl, compare_eq_iff_eq.2 rfl]
      rfl
    · rw [compare_gt_iff_gt.2 hm, compare_eq_iff_eq.2 rfl, compare_gt_iff_gt.2 (by omega)]
      rfl
  · rw [compare_gt_iff_gt.2 he, Ordering.gt_then, compare_gt_iff_gt.2 (by omega)]

theorem compare_neg (i j : Int) : compare (-i) (-j) = (compare i j).swap := by
  rcases lt_trichotomy i j with h | rfl | h
  · rw [compare_lt_iff_lt.2 h, compare_gt_iff_gt.2 (by omega)]
    rfl
  · rw [compare_eq_iff_eq.2 rfl, compare_eq_iff_eq.2 rfl]
    rfl
  · rw [compare_gt_iff_gt.2 h, compare_lt_iff_lt.2 (by omega)]
    rfl

/-- Defined numbers are compared as their places are. -/
theorem compare_eq_compare_place {u v : UnpackedFloat} (hu : InRange u) (hv : InRange v)
    (hu' : u ≠ .notANumber) (hv' : v ≠ .notANumber) :
    u.compare v = some (compare (place u) (place v)) := by
  have hlt {i j : Int} (h : i < j) : some Ordering.lt = some (compare i j) := by
    rw [compare_lt_iff_lt.2 h]
  have hgt {i j : Int} (h : j < i) : some Ordering.gt = some (compare i j) := by
    rw [compare_gt_iff_gt.2 h]
  cases u with
  | notANumber => exact absurd rfl hu'
  | infinity s =>
    cases v with
    | notANumber => exact absurd rfl hv'
    | infinity s' => cases s <;> cases s' <;> rfl
    | zero s' => cases s <;> rfl
    | finite s' m e hm =>
      rw [inRange_finite] at hv
      cases s <;> cases s' <;> dsimp only [place_infinity, place_zero, place_finite, UnpackedFloat.Sign.apply,
        UnpackedFloat.compare]
      · exact hlt (by omega)
      · exact hlt (by omega)
      · exact hgt (by omega)
      · exact hgt (by omega)
  | zero s =>
    cases v with
    | notANumber => exact absurd rfl hv'
    | infinity s' => cases s' <;> rfl
    | zero s' => rfl
    | finite s' m e hm =>
      rw [inRange_finite] at hv
      cases s' <;> dsimp only [place_infinity, place_zero, place_finite, UnpackedFloat.Sign.apply,
        UnpackedFloat.compare]
      · exact hgt (by omega)
      · exact hlt (by omega)
  | finite s m e hm =>
    rw [inRange_finite] at hu
    cases v with
    | notANumber => exact absurd rfl hv'
    | infinity s' =>
      cases s <;> cases s' <;> dsimp only [place_infinity, place_zero, place_finite, UnpackedFloat.Sign.apply,
        UnpackedFloat.compare]
      · exact hgt (by omega)
      · exact hlt (by omega)
      · exact hgt (by omega)
      · exact hlt (by omega)
    | zero s' =>
      cases s <;> dsimp only [place_infinity, place_zero, place_finite, UnpackedFloat.Sign.apply,
        UnpackedFloat.compare]
      · exact hlt (by omega)
      · exact hgt (by omega)
    | finite s' m' e' hm' =>
      rw [inRange_finite] at hv
      cases s <;> cases s' <;> dsimp only [place_infinity, place_zero, place_finite, UnpackedFloat.Sign.apply,
        UnpackedFloat.compare]
      · rw [compare_neg, compare_magnitude hu hv]
      · exact hlt (by omega)
      · exact hgt (by omega)
      · rw [compare_magnitude hu hv]

/-! ### The usual comparisons -/

theorem isNaN_iff (x : Float) : x.isNaN = true ↔ x.toModel.unpack = .notANumber := by
  show x.toModel.unpack.isNaN = true ↔ _
  cases x.toModel.unpack with
  | notANumber => exact iff_of_true rfl rfl
  | infinity | zero | finite => exact iff_of_false nofun nofun

/-- The undefined number is behind all others. -/
theorem rank_lt_of_not_isNaN {x y : Float} (hx : ¬ x.isNaN) (hy : y.isNaN) : rank x < rank y := by
  rw [rank_eq_place x, rank_eq_place y, (isNaN_iff y).1 hy]
  have hrange := inRange_unpack x
  rw [isNaN_iff] at hx
  generalize x.toModel.unpack = u at hx hrange
  cases u with
  | notANumber => exact absurd rfl hx
  | infinity s => cases s <;> decide
  | zero s => exact Int.ofNat_lt.2 (by decide)
  | finite s m e hm =>
    rw [inRange_finite] at hrange
    cases s <;> dsimp only [place_notANumber, place_finite, UnpackedFloat.Sign.apply] <;> omega

theorem compare_of_not_isNaN {x y : Float} (hx : ¬ x.isNaN) (hy : ¬ y.isNaN) :
    x.toModel.unpack.compare y.toModel.unpack = some (compareTotal x y) := by
  rw [isNaN_iff] at hx hy
  rw [compare_eq_compare_place (inRange_unpack x) (inRange_unpack y) hx hy, compareTotal,
    rank_eq_place, rank_eq_place]

/-- The usual comparisons of numbers say nothing about the undefined number. -/
theorem compare_of_isNaN {x y : Float} (h : x.isNaN ∨ y.isNaN) :
    x.toModel.unpack.compare y.toModel.unpack = none := by
  rw [isNaN_iff, isNaN_iff] at h
  generalize x.toModel.unpack = u, y.toModel.unpack = v at h
  rcases h with rfl | rfl
  · rfl
  · cases u <;> rfl

theorem compareTotal_of_isNaN {x y : Float} (hx : x.isNaN) (hy : y.isNaN) : compareTotal x y = .eq := by
  rw [compareTotal, compare_eq_iff_eq, rank_eq_place, rank_eq_place, (isNaN_iff x).1 hx,
    (isNaN_iff y).1 hy]

theorem beq_iff (x y : Float) :
    (x == y) = true ↔ x.toModel.unpack.compare y.toModel.unpack = some .eq := by
  show (_ == some Ordering.eq) = true ↔ _
  exact beq_iff_eq

theorem lt_iff (x y : Float) : x < y ↔ x.toModel.unpack.compare y.toModel.unpack = some .lt := by
  show decide ((_ == some Ordering.lt) = true) = true ↔ _
  rw [decide_eq_true_iff]
  exact beq_iff_eq

/-- Two numbers are at the same place if both are undefined or they are equal. -/
theorem compareTotal_eq_eq_iff {x y : Float} :
    compareTotal x y = .eq ↔ x.isNaN ∧ y.isNaN ∨ (x == y) = true := by
  rw [beq_iff]
  by_cases hx : x.isNaN <;> by_cases hy : y.isNaN
  · exact iff_of_true (compareTotal_of_isNaN hx hy) (.inl ⟨hx, hy⟩)
  · have hlt := rank_lt_of_not_isNaN hy hx
    rw [compareTotal, compare_gt_iff_gt.2 hlt, compare_of_isNaN (.inl hx)]
    refine iff_of_false nofun ?_
    rintro (⟨-, hnan⟩ | heq)
    · exact hy hnan
    · cases heq
  · have hlt := rank_lt_of_not_isNaN hx hy
    rw [compareTotal, compare_lt_iff_lt.2 hlt, compare_of_isNaN (.inr hy)]
    refine iff_of_false nofun ?_
    rintro (⟨hnan, -⟩ | heq)
    · exact hx hnan
    · cases heq
  · rw [compare_of_not_isNaN hx hy, Option.some.injEq]
    exact (or_iff_right fun hnan => hx hnan.1).symm

/-- A number comes before another if it is less, or if only the other is undefined. -/
theorem compareTotal_eq_lt_iff {x y : Float} :
    compareTotal x y = .lt ↔ x < y ∨ ¬ x.isNaN ∧ y.isNaN := by
  rw [lt_iff]
  by_cases hx : x.isNaN
  · -- the undefined number is last, and it is less than none
    have hge : compareTotal x y ≠ .lt := by
      by_cases hy : y.isNaN
      · rw [compareTotal_of_isNaN hx hy]
        nofun
      · rw [compareTotal, compare_gt_iff_gt.2 (rank_lt_of_not_isNaN hy hx)]
        nofun
    rw [compare_of_isNaN (.inl hx)]
    refine iff_of_false hge ?_
    rintro (heq | ⟨hnot, -⟩)
    · cases heq
    · exact hnot hx
  · by_cases hy : y.isNaN
    · exact iff_of_true (compare_lt_iff_lt.2 (rank_lt_of_not_isNaN hx hy)) (.inr ⟨hx, hy⟩)
    · rw [compare_of_not_isNaN hx hy, Option.some.injEq]
      exact (or_iff_left fun hnan => hy hnan.2).symm

end TableScript.Number
