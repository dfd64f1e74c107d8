import CoordTransform.Proofs.Matrix.Determinant
import CoordTransform.Proofs.Rational
import CoordTransform.Proofs.Transform.Homogeneous
import CoordTransform.Proofs.Transform.WellFormed

/-!
# Affine Maps as Matrices

The six coefficients of an affine map and its 3x3 matrix say the same. Every operation on maps has
its own formula, and each of them agrees with the operation on matrices: images, composites,
determinants and inverses. An inverse that a map knows needs no formula, and agrees as well,
because it undoes the map.
-/

namespace CoordTransform.Affine

open DenseMatrix Transform

variable {α : Type} [Scalar α] [Scalar.Exact α] {a b : Affine α}

/-! ## Coefficients from images -/

/-- Maps with the same images have the same coefficients: the origin and the two unit points tell
them apart. -/
theorem toAffineCoefficients_eq_of_apply (h : ∀ p, a.apply p = b.apply p) :
    a.toAffineCoefficients = b.toAffineCoefficients := by
  obtain ⟨⟨a00, a01, a02, a10, a11, a12⟩, _⟩ := a
  obtain ⟨⟨b00, b01, b02, b10, b11, b12⟩, _⟩ := b
  have horigin := h ⟨0, 0⟩
  have hfirst := h ⟨1, 0⟩
  have hsecond := h ⟨0, 1⟩
  simp only [apply, AffineCoefficients.apply, Point.mk.injEq, mul_zero, mul_one, zero_add,
    add_zero] at horigin hfirst hsecond
  -- The image of the origin is the displacement, which the other images have in common.
  obtain ⟨rfl, rfl⟩ := horigin
  simp only [add_left_inj] at hfirst hsecond
  rw [hfirst.1, hfirst.2, hsecond.1, hsecond.2]

theorem apply_compose (a b : Affine α) (p : Point α) :
    (a.compose b).apply p = a.apply (b.apply p) := by
  simp only [apply, compose, ofCoefficients, AffineCoefficients.apply, Point.mk.injEq]
  constructor
  · ring
  · ring

theorem apply_identity (p : Point α) : (identity : Affine α).apply p = p := by
  simp [apply, identity, ofCoefficients, AffineCoefficients.identity, AffineCoefficients.apply]

/-- A map undone by another one is its inverse from the left. -/
theorem compose_eq_identity (h : ∀ p, b.apply (a.apply p) = p) :
    b.compose a = identity := by
  have hcoefficients : (b.compose a).toAffineCoefficients = identity.toAffineCoefficients :=
    toAffineCoefficients_eq_of_apply fun p => by rw [apply_compose, h, apply_identity]
  exact congrArg ofCoefficients hcoefficients

/-! ## Matrices from coefficients -/

omit [Scalar.Exact α] in
theorem square_toMatrix (a : Affine α) : square 3 a.toMatrix =
    !![a.m00, a.m01, a.m02; a.m10, a.m11, a.m12; 0, 0, 1] := by
  ext r c
  fin_cases r <;> fin_cases c <;> rfl

theorem ofMatrix_toMatrix (a : Affine α) :
    ofMatrix a.toMatrix = .ok (ofCoefficients a.toAffineCoefficients) := by
  have hplane : isPlaneMatrix a.toMatrix = true := by
    rw [isPlaneMatrix, isAffine_toMatrix]
    rfl
  rw [ofMatrix, if_pos hplane]
  rfl

/-- The matrices of two maps are equal only when their coefficients are. -/
theorem toMatrix_injective (h : a.toMatrix = b.toMatrix) :
    a.toAffineCoefficients = b.toAffineCoefficients := by
  have hmaps := congrArg ofMatrix h
  rw [ofMatrix_toMatrix, ofMatrix_toMatrix, Except.ok.injEq] at hmaps
  have hcoefficients := congrArg (fun c : Affine α => c.toAffineCoefficients) hmaps
  exact hcoefficients

omit [Scalar.Exact α] in
theorem toMatrix_identity : (identity : Affine α).toMatrix = .identity 3 := by
  refine eq_of_square_eq (k := 3) ⟨rfl, rfl⟩ ⟨rfl, rfl⟩ ?_
  rw [square_toMatrix, square_identity, Matrix.one_fin_three]
  rfl

/-- The product of two matrices is the matrix of the composite. -/
theorem product_toMatrix (a b : Affine α) :
    a.toMatrix.product b.toMatrix = (a.compose b).toMatrix := by
  refine eq_of_square_eq (k := 3) ⟨rfl, rfl⟩ ⟨rfl, rfl⟩ ?_
  have hproduct : square 3 (a.toMatrix.product b.toMatrix) = square 3 a.toMatrix *
      square 3 b.toMatrix := square_product rfl rfl rfl
  rw [hproduct, square_toMatrix, square_toMatrix, square_toMatrix,
    Matrix.mul_fin_three]
  simp [compose, ofCoefficients]

theorem applyMatrix_toMatrix (a : Affine α) (p : Point α) :
    applyMatrix a.toMatrix [p.x, p.y] = .ok [(a.apply p).x, (a.apply p).y] :=
  (applyMatrix_eq_ok_iff rfl (by decide : 0 < 3)).2
    ((projects_toMatrix_iff a).2 ⟨p.x, p.y, rfl, rfl⟩)

/-! ## Determinants -/

theorem det_toMatrix (a : Affine α) : (square 3 a.toMatrix).det = a.determinant := by
  rw [square_toMatrix, Matrix.det_fin_three]
  simp [AffineCoefficients.determinant]

/-- The determinant of the matrix is that of the linear part. -/
theorem determinant_toMatrix (a : Affine α) : a.toMatrix.determinant = .ok a.determinant := by
  have hdeterminant : a.toMatrix.squareDeterminant = a.determinant :=
    (determinant3_eq a.toMatrix).trans (det_toMatrix a)
  rw [← hdeterminant]
  rfl

/-! ## Inverses -/

/-- A map and its inverse undo each other, and so do their matrices. -/
theorem Built.product_inverse (ha : a.Built) (h : a.inverse = .ok b) :
    b.toMatrix.product a.toMatrix = .identity 3 ∧ a.toMatrix.product b.toMatrix = .identity 3 := by
  -- The inverse knows the coefficients of the map.
  have hknown : b.knownInverse = some a.toAffineCoefficients := by
    obtain ⟨c, -, rfl⟩ := inverse_eq_ok h
    rfl
  obtain ⟨hforth, hback⟩ := (Built.inverse ha h).knownInverse _ hknown
  have hleft : b.compose a = identity := compose_eq_identity hback
  have hright : a.compose b = identity := compose_eq_identity hforth
  rw [product_toMatrix, product_toMatrix, hleft, hright, toMatrix_identity]
  exact ⟨rfl, rfl⟩

/-- A map without an inverse has a determinant of zero. -/
theorem inverse_cases (a : Affine α) : (∃ b, a.inverse = .ok b) ∨
    (a.inverse = .error .singularMatrix ∧ a.determinant = 0) := by
  cases hc : (a.knownInverse <|> a.toAffineCoefficients.inverse?) with
  | some c => exact .inl ⟨_, inverse_of_some hc⟩
  | none =>
    -- Nothing was known, and Cramer's rule gave up.
    refine .inr ⟨inverse_of_none hc, ?_⟩
    have hcomputed : a.toAffineCoefficients.inverse? = none := by
      cases hknown : a.knownInverse with
      | none => simpa [hknown] using hc
      | some c => simp [hknown] at hc
    simpa [AffineCoefficients.inverse?] using hcomputed

theorem isUnit_toMatrix_iff : IsUnit (square 3 a.toMatrix) ↔ a.determinant ≠ 0 := by
  rw [Matrix.isUnit_iff_isUnit_det, det_toMatrix, isUnit_iff_ne_zero]

theorem Built.square_mul (ha : a.Built) (h : a.inverse = .ok b) :
    square 3 b.toMatrix * square 3 a.toMatrix = 1 := by
  have hleft := congrArg (square 3) (ha.product_inverse h).1
  rwa [square_product (k := 3) rfl rfl rfl, square_identity] at hleft

/-- A map has an inverse exactly when its matrix is invertible. -/
theorem Built.exists_inverse_iff (ha : a.Built) :
    (∃ b, a.inverse = .ok b) ↔ IsUnit (square 3 a.toMatrix) := by
  constructor
  · rintro ⟨b, hb⟩
    exact .of_mul_eq_one _ (mul_eq_one_comm.1 (ha.square_mul hb))
  · intro hunit
    rcases inverse_cases a with hinverse | ⟨-, hzero⟩
    · exact hinverse
    · exact absurd hzero (isUnit_toMatrix_iff.1 hunit)

/-- The closed form for three rows inverts the matrix of a map unless its determinant is zero. -/
theorem inverse_toMatrix_cases (a : Affine α) :
    (a.determinant ≠ 0 ∧ ∃ m, a.toMatrix.inverse = .ok m) ∨
      (a.determinant = 0 ∧ a.toMatrix.inverse = .error .singularMatrix) := by
  unfold DenseMatrix.inverse
  rw [determinant_toMatrix]
  dsimp only [bind, Except.bind]
  -- The general inverse decides by the computed determinant, and for three rows that is the true
  -- one.
  by_cases hzero : a.determinant = 0
  · exact .inr ⟨hzero, if_pos (by simpa using hzero)⟩
  · have hdeterminant : a.toMatrix.determinant3 ≠ 0 := by rwa [determinant3_eq, det_toMatrix]
    obtain ⟨m, hm⟩ : ∃ m, a.toMatrix.squareInverse? = some m :=
      ⟨_, if_neg (by simpa using hdeterminant)⟩
    rw [if_neg (by simpa using hzero), hm]
    exact .inl ⟨hzero, m, rfl⟩

/-- The inverse of the matrix is the matrix of the inverse, and a map without an inverse has a
singular matrix. -/
theorem Built.inverse_toMatrix (ha : a.Built) :
    a.toMatrix.inverse = a.inverse.map fun b => b.toMatrix := by
  rcases inverse_cases a with ⟨b, hb⟩ | ⟨herror, hzero⟩
  · rcases inverse_toMatrix_cases a with ⟨-, m, hm⟩ | ⟨hzero, -⟩
    · -- There is only one inverse.
      have hinverse : square 3 m = square 3 b.toMatrix :=
        (square_inverse rfl hm).trans (Matrix.inv_eq_left_inv (ha.square_mul hb))
      have hshape : m.rows = 3 ∧ m.cols = 3 := (shape_inverse hm).2
      rw [hm, hb, eq_of_square_eq hshape ⟨rfl, rfl⟩ hinverse]
      rfl
    · exact absurd hzero (isUnit_toMatrix_iff.1 (ha.exists_inverse_iff.1 ⟨b, hb⟩))
  · rcases inverse_toMatrix_cases a with ⟨hne, -⟩ | ⟨-, hsingular⟩
    · -- An inverse without a determinant, and a determinant without an inverse, cannot be.
      exact absurd hzero hne
    · rw [hsingular, herror]
      rfl

/-! ## Maps and matrices -/

/-- A map and its matrix determine each other, and whatever is done to maps agrees with what is
done to matrices. That holds as well of maps that are inverses themselves, and therefore know
theirs. What is applied backward is the inverse, applied forward. -/
theorem toMatrix_agrees (ha : a.Built) :
    (ofMatrix a.toMatrix = .ok (ofCoefficients a.toAffineCoefficients) ∧
      ∀ b : Affine α, a.toMatrix = b.toMatrix → a.toAffineCoefficients = b.toAffineCoefficients) ∧
    (∀ p : Point α, applyMatrix a.toMatrix [p.x, p.y] = .ok [(a.apply p).x, (a.apply p).y]) ∧
    (∀ b : Affine α, a.toMatrix.multiply b.toMatrix = .ok (a.compose b).toMatrix) ∧
    (a.toMatrix.determinant = .ok a.determinant ∧ (square 3 a.toMatrix).det = a.determinant) ∧
    (((∃ b, a.inverse = .ok b) ↔ IsUnit (square 3 a.toMatrix)) ∧
      a.toMatrix.inverse = a.inverse.map fun b => b.toMatrix) ∧
    (∀ b, a.inverse = .ok b → a.toMatrix.multiply b.toMatrix = .ok (.identity 3) ∧
      b.toMatrix.multiply a.toMatrix = .ok (.identity 3)) ∧
    (∀ p, a.applyInverse p = a.inverse.map fun b => b.apply p) ∧
    ∀ box, a.applyInverseBox box = a.inverse.map fun b => b.applyBox box := by
  refine ⟨⟨ofMatrix_toMatrix a, fun b => toMatrix_injective⟩, applyMatrix_toMatrix a, fun b => ?_,
    ⟨determinant_toMatrix a, det_toMatrix a⟩, ⟨ha.exists_inverse_iff, ha.inverse_toMatrix⟩,
    fun b hb => ?_, fun p => ?_, fun box => ?_⟩
  · rw [multiply_eq_ok rfl, product_toMatrix]
  · obtain ⟨hleft, hright⟩ := ha.product_inverse hb
    rw [multiply_eq_ok rfl, multiply_eq_ok rfl, hleft, hright]
    exact ⟨rfl, rfl⟩
  · -- Applying backward goes through the coefficients of the inverse and never builds the map.
    unfold applyInverse inverse
    cases a.inverseCoefficients with
    | ok c => rfl
    | error e => rfl
  · unfold applyInverseBox
    cases a.inverse with
    | ok b => rfl
    | error e => rfl

/-- A map that doubles, shears and displaces. -/
def doubled : Affine ℚ := ofCoefficients ⟨2, 1, 3, 0, 2, -1⟩

/-- Its inverse, which knows it. -/
def halved : Affine ℚ :=
  { m00 := 1 / 2, m01 := -1 / 4, m02 := -7 / 4, m10 := 0, m11 := 1 / 2, m12 := 1 / 2,
    knownInverse := some doubled.toAffineCoefficients }

theorem built_halved : halved.Built := by
  refine .inverse (.ofCoefficients ⟨2, 1, 3, 0, 2, -1⟩) ?_
  with_unfolding_all rfl

/-- The inverse that is known agrees with the one that is computed from the matrix. -/
theorem toMatrix_agrees_halved :
    halved.Built ∧ halved.toMatrix.inverse = .ok doubled.toMatrix ∧
      halved.applyInverse ⟨1, 1⟩ = .ok ⟨6, 1⟩ := by
  obtain ⟨-, -, -, -, ⟨-, hinverse⟩, -, hpoint, -⟩ := toMatrix_agrees built_halved
  refine ⟨built_halved, hinverse, (hpoint ⟨1, 1⟩).trans ?_⟩
  with_unfolding_all rfl

end CoordTransform.Affine
