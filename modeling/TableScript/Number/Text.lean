import TableScript.Number.Shortest

/-!
# Numbers as text

Numbers are written with the fewest digits that read back to the same double, always in
positional notation, whole numbers without a point. They are read as digits with an optional
fraction, rounded to the nearest double.
-/

namespace TableScript.Number

/-- The decimal digits of a natural number. -/
def digits (n : Nat) : List Char := Nat.toDigits 10 n

/-- A decimal in positional notation. -/
def Decimal.positional (d : Decimal) : List Char :=
  let ds := digits d.coefficient
  let places := (-d.exponent).toNat
  if places = 0 then ds ++ List.replicate d.exponent.toNat '0'
  else if places < ds.length then
    ds.take (ds.length - places) ++ '.' :: ds.drop (ds.length - places)
  else '0' :: '.' :: List.replicate (places - ds.length) '0' ++ ds

/-- The text of a number: the fewest digits that read back, `-0` for negative zero, and words for
the infinities and for the undefined number. -/
def text (x : Float) : String :=
  let bits := x.toBits.toNat
  let fraction := bits % Nat.pow 2 52
  let exponent := bits / Nat.pow 2 52 % Nat.pow 2 11
  let sign := if bits / Nat.pow 2 63 = 1 then "-" else ""
  if exponent = 2047 then
    if fraction = 0 then sign ++ "inf" else "NaN"
  else if exponent = 0 ∧ fraction = 0 then sign ++ "0"
  else sign ++ String.ofList (Dyadic.ofFields exponent fraction).shortest.positional

/-- The value of a string of decimal digits. -/
def ofDigits (ds : List Char) : Nat :=
  ds.foldl (fun n c => 10 * n + (c.toNat - '0'.toNat)) 0

/-- The number nearest to `whole.fraction`. -/
def ofDecimal (whole fraction : List Char) : Float :=
  Float.ofScientific (ofDigits (whole ++ fraction)) true fraction.length

/-- Reads a run of digits and points. It is a number if it has no point, or one point with digits
after it. -/
def ofLexeme? (cs : List Char) : Option Float :=
  let whole := cs.takeWhile (· != '.')
  match cs.dropWhile (· != '.') with
  | [] => some (ofDecimal whole [])
  | _ :: fraction =>
    if fraction.isEmpty || fraction.contains '.' then none else some (ofDecimal whole fraction)

end TableScript.Number
