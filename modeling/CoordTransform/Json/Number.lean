import CoordTransform.Decimal.Reading
import CoordTransform.Json.Basic

/-!
# Numbers of JSON Documents

A number without point and exponent below `2 ^ 64` is a natural number. As a double a number is
read with one rounding of its digits and one multiplication or division by a power of ten, and
not as the nearest double. Digits that do not fit into 64 bits count as zeros before the point
and are dropped after it. A number above the greatest double denotes nothing.
-/

namespace CoordTransform.JsonNumber

/-! ## Digits -/

/-- Digits are taken as long as their value stays below this. -/
def significandBound : Nat := UInt64.size

/-- Appends digits to a significand as long as it fits; the second part is the number of digits
left over. -/
def absorb (significand : Nat) : List Nat → Nat × Nat
  | [] => (significand, 0)
  | d :: ds =>
    if significandBound ≤ 10 * significand + d then (significand, (d :: ds).length)
    else absorb (10 * significand + d) ds

/-- The natural number that is written, if it is one. -/
def natural? (n : JsonNumber) : Option Nat :=
  match n.negative, n.places, n.exponent, absorb 0 n.whole with
  | false, none, none, (value, 0) => some value
  | _, _, _, _ => none

/-! ## Doubles -/

/-- A power of ten as the nearest double. -/
def powerOfTen (n : Nat) : Float := (Decimal.Fraction.mk 1 n).toFloat

/-- The greatest exponent of a power of ten that is a double. -/
def largestPower : Nat := 308

/-- A double times a power of ten. Very small powers are applied in several steps, until the
result is zero; the first argument bounds their number. -/
def scale? : Nat → Float → Int → Option Float
  | steps, x, e =>
    if e.natAbs ≤ largestPower then
      let y := if 0 ≤ e then x * powerOfTen e.natAbs else x / powerOfTen e.natAbs
      if y.isInf then none else some y
    else if x == 0 then some x
    else if 0 ≤ e then none
    else
      match steps with
      | 0 => some 0
      | steps + 1 => scale? steps (x / powerOfTen largestPower) (e + largestPower)

/-- Exponents are counted up to this. -/
def largestExponent : Nat := 2147483647

/-- The magnitude of a significand with an exponent. An exponent beyond all counting makes the
magnitude zero or, when it is positive, unbounded. -/
def magnitude? (significand : Nat) (shift : Int) (exponent : Option (Bool × List Nat)) :
    Option Float :=
  match exponent with
  | none => scale? 4 (Float.ofNat significand) shift
  | some (negative, ds) =>
    let e := ds.foldl (fun e d => 10 * e + d) 0
    if largestExponent < e then if significand == 0 || negative then some 0 else none
    else scale? 4 (Float.ofNat significand) (if negative then shift - e else shift + e)

/-- The double that is written, if it is in range. -/
def float? (n : JsonNumber) : Option Float :=
  let (whole, left) := absorb 0 n.whole
  let places := n.places.getD []
  let (significand, dropped) := absorb whole places
  let shift : Int := left - (places.length - dropped : Nat)
  (magnitude? significand shift n.exponent).map fun x => if n.negative then -x else x

end CoordTransform.JsonNumber
