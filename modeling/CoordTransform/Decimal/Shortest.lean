import CoordTransform.Decimal.Binary
import CoordTransform.Decimal.Fraction

/-!
# The Shortest Decimal that Reads Back

The shortest decimal of a double is the one with the fewest digits among those that read back
as the double, and of those the one nearest to it. Two equally near ones exist for a few powers
of two; then the larger one is taken.

The grids `10 ^ p` are tried from coarse to fine. On each grid only the two points next to the
value can be nearest, so only these two are tested.
-/

namespace CoordTransform.Decimal

/-! ## Selection -/

namespace Binary

/-- The best point of the grid `10 ^ p`: of the two neighbours of the value those that read
back, the nearer of them, and the larger one when both are equally near. -/
def nearestOn (b : Binary) (p : Int) : Option Nat :=
  let (unit, quarter) := b.commonUnits p
  let value := b.quarters * quarter
  let below := value / unit
  let above := below + 1
  match b.readsBack p below, b.readsBack p above with
  -- A tie goes to the larger point.
  | true, true => if value - below * unit < above * unit - value then some below else some above
  | true, false => some below
  | false, true => some above
  | false, false => none

/-- A grid at least as coarse as the place of the leading digit. -/
def coarsestGrid (b : Binary) : Int :=
  ((b.significand.log2 : Int) + b.exponent + 1) * 30103 / 100000 + 1

/-- The first grid, from `p` downwards, with a point that reads back. -/
def firstHit (b : Binary) : Nat → Int → Fraction
  -- The last grid is so fine that one of its points reads back.
  | 0, p => ⟨(b.nearestOn p).getD 0, p⟩
  | n + 1, p =>
    match b.nearestOn p with
    | some k => ⟨k, p⟩
    | none => firstHit b n (p - 1)

/-- Seventeen digits always read back, so that twenty grids are enough. -/
def gridCount : Nat := 20

/-- The shortest decimal that reads back, without trailing zeros. -/
def shortest (b : Binary) : Fraction :=
  if b.significand == 0 then ⟨0, 0⟩
  else (b.firstHit gridCount b.coarsestGrid).stripZeros 17

end Binary

end CoordTransform.Decimal
