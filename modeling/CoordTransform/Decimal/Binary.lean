/-!
# Doubles as Binary Fractions

A finite double is a sign and a binary fraction `significand * 2 ^ exponent`. Every text of a
number, shortest or with fixed places, is computed from that fraction in exact integer
arithmetic.
-/

namespace CoordTransform.Decimal

/-! ## Binary fractions -/

/-- The magnitude of a finite double: `significand * 2 ^ exponent`, the exponent never below
`-1074`, the significand below `2 ^ 53`. -/
structure Binary where
  significand : Nat
  exponent : Int
  deriving DecidableEq, Repr

/-- What a double is: not a number, an infinity, or a signed binary fraction. -/
inductive Parts where
  | notANumber
  | infinite (negative : Bool)
  | finite (negative : Bool) (magnitude : Binary)
  deriving DecidableEq, Repr

/-- The exponent of the last place of subnormal doubles. -/
def lowestExponent : Int := -1074

/-- The significand of a normal double has this bit set. -/
def hiddenBit : Nat := 1 <<< 52

/-- Reads the three fields of a double's bits. -/
def Parts.ofBits (bits : Nat) : Parts :=
  let negative := (bits >>> 63) % 2 == 1
  let biased := (bits >>> 52) % 2048
  let fraction := bits % hiddenBit
  if biased == 2047 then
    if fraction == 0 then .infinite negative else .notANumber
  else if biased == 0 then .finite negative ⟨fraction, lowestExponent⟩
  else .finite negative ⟨hiddenBit + fraction, lowestExponent + (biased - 1 : Nat)⟩

/-- The parts of a double. -/
def Parts.ofFloat (x : Float) : Parts := Parts.ofBits x.toBits.toNat

/-! ## The interval that reads back -/

namespace Binary

/-- Quarters of the last place: the value in units of `2 ^ (exponent - 2)`. -/
def quarters (b : Binary) : Nat := 4 * b.significand

/-- The lower end, in quarters, of the reals that round to this double. The gap below a power
of two is half as wide as the gap above it, except at the lowest exponent. -/
def lowerQuarters (b : Binary) : Nat :=
  if b.significand == hiddenBit && decide (lowestExponent < b.exponent) then b.quarters - 1
  else b.quarters - 2

/-- The upper end, in quarters, of the reals that round to this double. -/
def upperQuarters (b : Binary) : Nat := b.quarters + 2

/-- The ends themselves round to the double with the even significand. -/
def endsIncluded (b : Binary) : Bool := b.significand % 2 == 0

/-- One unit `10 ^ p` of a decimal grid and one quarter of the double, both multiplied by the
least power that makes the two integers. -/
def commonUnits (b : Binary) (p : Int) : Nat × Nat :=
  let e := b.exponent - 2
  (Nat.pow 10 p.toNat <<< (-e).toNat, Nat.pow 10 (-p).toNat <<< e.toNat)

/-- Whether the decimal `k * 10 ^ p` reads back as this double. -/
def readsBack (b : Binary) (p : Int) (k : Nat) : Bool :=
  let (unit, quarter) := b.commonUnits p
  let low := b.lowerQuarters * quarter
  let high := b.upperQuarters * quarter
  if b.endsIncluded then low ≤ k * unit && k * unit ≤ high
  else low < k * unit && k * unit < high

end Binary

end CoordTransform.Decimal
