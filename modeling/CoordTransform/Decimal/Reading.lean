import CoordTransform.Decimal.Fraction
import CoordTransform.Text.Letters

/-!
# Reading Numbers

The grammar of numbers is `[+-]? (digits '.'? digits? | '.' digits) ([eE] [+-]? digits)?`, or
one of the words `inf`, `infinity` and `nan` in any case with an optional sign. A number is read
as the nearest double, a tie to the even one.
-/

namespace CoordTransform.Decimal

/-! ## The grammar -/

/-- What a text denotes. -/
inductive Reading where
  | notANumber
  | infinite (negative : Bool)
  | finite (negative : Bool) (magnitude : Fraction)
  deriving DecidableEq, Repr

/-- The value of a string of digits. -/
def digitsValue (cs : List Char) : Nat :=
  cs.foldl (fun n c => 10 * n + (c.toNat - '0'.toNat)) 0

/-- An optional sign in front; `true` for a minus. -/
def splitSign : List Char → Bool × List Char
  | '-' :: cs => (true, cs)
  | '+' :: cs => (false, cs)
  | cs => (false, cs)

/-- A non-empty string of digits with an optional sign. -/
def readInteger? (cs : List Char) : Option Int :=
  let (negative, ds) := splitSign cs
  if ds.isEmpty || !ds.all Char.isDigit then none
  else if negative then some (-(digitsValue ds : Int)) else some (digitsValue ds)

/-- Digits with at most one point among them, at least one digit in all. -/
def readMantissa? (cs : List Char) : Option Fraction :=
  let whole := cs.takeWhile Char.isDigit
  match cs.dropWhile Char.isDigit with
  | [] => if whole.isEmpty then none else some ⟨digitsValue whole, 0⟩
  | c :: places =>
    if c != '.' || !places.all Char.isDigit || (whole.isEmpty && places.isEmpty) then none
    else some ⟨digitsValue (whole ++ places), -(places.length : Int)⟩

/-- The marks between mantissa and exponent. -/
def isExponentMark (c : Char) : Bool := c == 'e' || c == 'E'

/-- An unsigned number with an optional exponent. -/
def readMagnitude? (cs : List Char) : Option Fraction :=
  let mantissa := cs.takeWhile (!isExponentMark ·)
  match cs.dropWhile (!isExponentMark ·) with
  | [] => readMantissa? mantissa
  | _ :: exponent => do
    let m ← readMantissa? mantissa
    let e ← readInteger? exponent
    some ⟨m.digits, m.exponent + e⟩

/-- Reads a whole text as a number. -/
def read? (cs : List Char) : Option Reading :=
  let (negative, magnitude) := splitSign cs
  -- The words have no digit, so that they are told from numbers before these are read.
  let word := Text.lower (String.ofList magnitude)
  if word == "inf" || word == "infinity" then some (.infinite negative)
  else if word == "nan" then some .notANumber
  else (readMagnitude? magnitude).map (.finite negative)

/-! ## The nearest double -/

/-- The number of decimal digits, zero for zero. -/
def digitCount (n : Nat) : Nat := if n == 0 then 0 else (Nat.toDigits 10 n).length

/-- The nearest double of a magnitude. From `10 ^ 310` on it is infinite and below
`10 ^ -400` it is zero; in between it is computed exactly. -/
def Fraction.toFloat (d : Fraction) : Float :=
  -- Powers of ten far outside the range of doubles are not computed.
  let top := (digitCount d.digits : Int) + d.exponent
  if d.digits == 0 || top < -400 then 0
  else if 310 < top then 1 / 0
  else if d.exponent < 0 then Float.ofScientific d.digits true d.exponent.natAbs
  else Float.ofScientific d.digits false d.exponent.natAbs

/-- The nearest double of a reading. -/
def Reading.toFloat : Reading → Float
  | .notANumber => 0 / 0
  | .infinite negative => if negative then -(1 / 0) else 1 / 0
  | .finite negative d => if negative then -d.toFloat else d.toFloat

/-- Reads a text as a double. -/
def readFloat? (cs : List Char) : Option Float := (read? cs).map Reading.toFloat

end CoordTransform.Decimal
