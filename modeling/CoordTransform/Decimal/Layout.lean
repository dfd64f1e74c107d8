import CoordTransform.Decimal.Shortest

/-!
# Layouts of Numbers

Three layouts are used: the *plain* one of elements and messages (never an exponent, no
trailing `.0`), the one of *lists* (always a point or an exponent), and the one with *fixed
places*.
-/

namespace CoordTransform.Decimal

/-! ## Digits -/

/-- The decimal digits of a natural number, most significant first. -/
def digitChars (n : Nat) : List Char := Nat.toDigits 10 n

/-- `n` zeros. -/
def zeros (n : Nat) : List Char := List.replicate n '0'

namespace Fraction

/-- The position of the leading digit: `d.ddd * 10 ^ leading`. -/
def leading (d : Fraction) : Int := (digitChars d.digits).length - 1 + d.exponent

/-- Positional notation, with a point only where digits follow it. -/
def plainChars (d : Fraction) : List Char :=
  let ds := digitChars d.digits
  if 0 ≤ d.exponent then
    if d.digits == 0 then ['0'] else ds ++ zeros d.exponent.toNat
  else
    let places := (-d.exponent).toNat
    if places < ds.length then
      ds.take (ds.length - places) ++ '.' :: ds.drop (ds.length - places)
    else ['0', '.'] ++ zeros (places - ds.length) ++ ds

/-- One digit before the point and an exponent after `e`. -/
def scientificChars (d : Fraction) : List Char :=
  let mantissa := match digitChars d.digits with
    | [] => []
    | [c] => [c]
    | c :: cs => c :: '.' :: cs
  let power := if d.leading < 0 then '-' :: digitChars d.leading.natAbs
    else digitChars d.leading.natAbs
  mantissa ++ 'e' :: power

end Fraction

/-! ## Signs and special values -/

/-- The sign in front of a magnitude. -/
def signed (negative : Bool) (magnitude : List Char) : List Char :=
  if negative then '-' :: magnitude else magnitude

/-- A number, an infinity or `NaN`; `finite` lays out the magnitude of a number. -/
def layoutWith (finite : Binary → List Char) : Parts → String
  | .notANumber => "NaN"
  | .infinite negative => String.ofList (signed negative ['i', 'n', 'f'])
  | .finite negative b => String.ofList (signed negative (finite b))

/-! ## The three layouts -/

/-- The plain layout: the shortest decimal in positional notation. -/
def plain (x : Float) : String :=
  layoutWith (fun b => b.shortest.plainChars) (Parts.ofFloat x)

/-- In lists, numbers below `10 ^ -4` and from `10 ^ 16` on are written with an exponent, and
whole numbers with the place after the point. -/
def listChars (b : Binary) : List Char :=
  let d := b.shortest
  if d.digits == 0 then ['0', '.', '0']
  else if d.leading < -4 || 16 ≤ d.leading then d.scientificChars
  else if 0 ≤ d.exponent then d.plainChars ++ ['.', '0']
  else d.plainChars

/-- The layout of a number in a list. -/
def inList (x : Float) : String := layoutWith listChars (Parts.ofFloat x)

/-- A list of numbers in brackets. -/
def listText (xs : List Float) : String :=
  "[" ++ String.intercalate ", " (xs.map inList) ++ "]"

/-- The quotient rounded to the nearest integer, a half to the even neighbour. -/
def roundHalfEven (n d : Nat) : Nat :=
  let q := n / d
  let r := n % d
  if 2 * r < d then q
  else if d < 2 * r then q + 1
  else if q % 2 == 0 then q else q + 1

/-- The magnitude with `places` digits after the point, rounded from its exact value. -/
def fixedChars (places : Nat) (b : Binary) : List Char :=
  let n := roundHalfEven ((b.significand <<< b.exponent.toNat) * Nat.pow 10 places)
    (1 <<< (-b.exponent).toNat)
  let ds := digitChars n
  let ds := zeros (places + 1 - ds.length) ++ ds
  if places == 0 then ds
  else ds.take (ds.length - places) ++ '.' :: ds.drop (ds.length - places)

/-- The layout with `places` digits after the point. -/
def fixed (places : Nat) (x : Float) : String := layoutWith (fixedChars places) (Parts.ofFloat x)

end CoordTransform.Decimal
