import CoordTransform.DenseMatrix.Inverse
import CoordTransform.Geodesy.Trigonometry

/-!
# Bursa-Wolf Shifts

A shift record leads from one datum to a target: three displacements, three small rotations in
arc-seconds and a scale difference in parts per million. It stands for a 4x4 homogeneous matrix
of geocentric coordinates, and can be read back from one.
-/

namespace CoordTransform

/-- Scalars with an arc-second. -/
class Angular (α : Type) extends Scalar α where
  /-- One arc-second in radians. -/
  arcSecond : α

instance : Angular Float where
  arcSecond := pi / (180 * 3600)

/-- A shift record to the datum with a given number. -/
structure BursaWolf (α : Type) where
  target : Nat
  dx : α
  dy : α
  dz : α
  ex : α
  ey : α
  ez : α
  ppm : α
  deriving Repr, DecidableEq

namespace BursaWolf

variable {α : Type}

/-- The seven parameters in order. -/
def toList (p : BursaWolf α) : List α := [p.dx, p.dy, p.dz, p.ex, p.ey, p.ez, p.ppm]

section

variable [Scalar α]

/-! ## Special shifts -/

/-- The shift by a vector. -/
def displacement (target : Nat) (dx dy dz : α) : BursaWolf α := ⟨target, dx, dy, dz, 0, 0, 0, 0⟩

/-- Whether a shift neither rotates nor scales. -/
def isDisplacement (p : BursaWolf α) : Bool :=
  Scalar.isZero p.ex && Scalar.isZero p.ey && Scalar.isZero p.ez && Scalar.isZero p.ppm

/-- Whether a shift changes nothing. -/
def isIdentity (p : BursaWolf α) : Bool :=
  p.isDisplacement && Scalar.isZero p.dx && Scalar.isZero p.dy && Scalar.isZero p.dz

/-- Whether two shifts have the same target and equal parameters. -/
def equal (p q : BursaWolf α) : Bool :=
  p.target == q.target && (p.toList.zip q.toList).all fun x => Scalar.numEq x.1 x.2

end

variable [Angular α]

/-! ## Matrices -/

/-- One million. -/
def million : α := Scalar.ofNat 1000000

/-- The matrix of a shift. -/
def toMatrix (p : BursaWolf α) : DenseMatrix α :=
  let s := 1 + p.ppm / million
  let rs := Angular.arcSecond * s
  .ofFn 4 4 fun r c =>
    match r, c with
    | 0, 0 => s
    | 0, 1 => -p.ez * rs
    | 0, 2 => p.ey * rs
    | 0, 3 => p.dx
    | 1, 0 => p.ez * rs
    | 1, 1 => s
    | 1, 2 => -p.ex * rs
    | 1, 3 => p.dy
    | 2, 0 => -p.ey * rs
    | 2, 1 => p.ex * rs
    | 2, 2 => s
    | 2, 3 => p.dz
    | _, 3 => 1
    | _, _ => 0

/-- The shift of a 4x4 affine matrix: the scale is the mean of the diagonal, and each rotation
half the difference of two opposite entries. -/
def ofMatrix? (target : Nat) (m : DenseMatrix α) : Option (BursaWolf α) :=
  if m.rows == 4 && m.cols == 4 && m.isAffine then
    let s := (m.entry 0 0 + m.entry 1 1 + m.entry 2 2) / Scalar.ofNat 3
    let rs := Angular.arcSecond * s
    let half : α := 1 / Scalar.ofNat 2
    some
      { target
        dx := m.entry 0 3
        dy := m.entry 1 3
        dz := m.entry 2 3
        ex := half * (m.entry 2 1 - m.entry 1 2) / rs
        ey := half * (m.entry 0 2 - m.entry 2 0) / rs
        ez := half * (m.entry 1 0 - m.entry 0 1) / rs
        ppm := (s - 1) * million }
  else none

end BursaWolf

end CoordTransform
