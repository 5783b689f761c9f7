/-!
# Shortest decimals

A positive double `m · 2 ^ q` stands for an interval of reals, those that round to it. The shortest
decimal of the double is the point `p · 10 ^ k` of that interval with the largest `k`; where the
grid of `10 ^ k` has two points in the interval, it is the nearer one, and the upper one if both
are equally near.

Everything is exact arithmetic on natural numbers. Comparing `a · 2 ^ i` with `p · 10 ^ k` for
integers `i` and `k` is done by multiplying each side with the other side's negative powers.
-/

namespace TableScript.Number

/-- A positive dyadic number `mantissa · 2 ^ exponent`. -/
structure Dyadic where
  mantissa : Nat
  exponent : Int
deriving Repr, DecidableEq

/-- A decimal number `coefficient · 10 ^ exponent`. -/
structure Decimal where
  coefficient : Nat
  exponent : Int
deriving Repr, DecidableEq

/-- The reals that round to a double, in quarters of its last place: `low`, `value` and `high` times
`2 ^ exponent`. The ends belong to the interval if `closed`. -/
structure Interval where
  low : Nat
  value : Nat
  high : Nat
  exponent : Int
  closed : Bool
deriving Repr, DecidableEq

/-- The fraction field of a double has 52 bits. -/
def fractionBits : Nat := 52

/-- The value of a finite nonzero double, its sign dropped, from its exponent and fraction
fields. -/
def Dyadic.ofFields (exponent fraction : Nat) : Dyadic :=
  if exponent = 0 then ⟨fraction, -1074⟩
  else ⟨Nat.pow 2 fractionBits + fraction, (exponent : Int) - 1075⟩

/-- The reals that round to a double. Half a place belongs to each side, except below a power of
two, where the doubles are twice as close; the ends round to the even mantissa. -/
def Dyadic.interval (d : Dyadic) : Interval where
  low := if d.mantissa = Nat.pow 2 fractionBits ∧ d.exponent ≠ -1074
    then 4 * d.mantissa - 1 else 4 * d.mantissa - 2
  value := 4 * d.mantissa
  high := 4 * d.mantissa + 2
  exponent := d.exponent - 2
  closed := d.mantissa % 2 = 0

/-- The factor on the side of the interval when it is compared with multiples of `10 ^ k`. -/
def Interval.scale (i : Interval) (k : Int) : Nat :=
  Nat.pow 2 i.exponent.toNat * Nat.pow 10 (-k).toNat

/-- The factor on the side of the grid when the interval is compared with multiples of
`10 ^ k`. -/
def Interval.unit (i : Interval) (k : Int) : Nat :=
  Nat.pow 2 (-i.exponent).toNat * Nat.pow 10 k.toNat

/-- Whether `p · 10 ^ k` is in the interval. -/
def Interval.holds (i : Interval) (k : Int) (p : Nat) : Bool :=
  let point := p * i.unit k
  if i.closed then i.low * i.scale k ≤ point ∧ point ≤ i.high * i.scale k
  else i.low * i.scale k < point ∧ point < i.high * i.scale k

/-- The point of the grid of `10 ^ k` in the interval that is nearest to the value, if there is
one. Only the two neighbours of the value can be. -/
def Interval.nearest? (i : Interval) (k : Int) : Option Decimal :=
  let value := i.value * i.scale k
  let below := value / i.unit k
  let above := below + 1
  match i.holds k below, i.holds k above with
  | true, true =>
    if value - below * i.unit k < above * i.unit k - value then some ⟨below, k⟩
    else some ⟨above, k⟩
  | true, false => some ⟨below, k⟩
  | false, true => some ⟨above, k⟩
  | false, false => none

/-- The first hit on the grids of `10 ^ k`, `10 ^ (k - 1)`, …, at most `steps` of them after the
first. -/
def Interval.search (i : Interval) : Nat → Int → Decimal
  | 0, k => (i.nearest? k).getD ⟨i.value * i.scale k / i.unit k, k⟩
  | steps + 1, k => (i.nearest? k).getD (i.search steps (k - 1))

/-- An exponent above which no power of ten is as small as `d`; `30103 / 100000` is just above the
logarithm of two. -/
def Dyadic.decade (d : Dyadic) : Int :=
  ((d.mantissa.log2 : Int) + 2 + d.exponent) * 30103 / 100000 + 1

/-- The shortest decimal of a double. Seventeen digits always suffice, so twenty grids do. -/
def Dyadic.shortest (d : Dyadic) : Decimal := d.interval.search 20 d.decade

end TableScript.Number
