import Mathlib
import CoordTransform.Proofs.FiniteInverse
import CoordTransform.Proofs.Rational
import CoordTransform.Proofs.Transform.Homogeneous

/-!
# Shifts and their Matrices

In exact arithmetic a shift is determined by its matrix, unless its scale difference is minus one
million: then the scale is zero, and the rotations vanish with it. The matrices of shifts are the
affine ones whose diagonal is constant and whose rotational part is antisymmetric (`IsSimilarity`).
Reading a shift from any other affine matrix succeeds as well, but it forgets how the matrix differs
from this form.

Both directions compare the same table of entries: what stands in the matrix of a shift
(`entry_toMatrix`), and what is read from a matrix (`ofMatrix?_eq_some`).
-/

namespace CoordTransform.BursaWolf

variable {α : Type} [Angular α]

/-! ## The matrix of a shift -/

/-- The scale of a shift; its diagonal entries. -/
def scale (p : BursaWolf α) : α := 1 + p.ppm / million

/-- The factor of the rotations in the matrix of a shift. -/
def turn (p : BursaWolf α) : α := Angular.arcSecond * p.scale

/-- The first three rows of the matrix, by columns. -/
def table (p : BursaWolf α) : Fin 3 → Fin 4 → α :=
  ![![p.scale, -p.ez * p.turn, p.ey * p.turn, p.dx],
    ![p.ez * p.turn, p.scale, -p.ex * p.turn, p.dy],
    ![-p.ey * p.turn, p.ex * p.turn, p.scale, p.dz]]

theorem entry_toMatrix (p : BursaWolf α) (r : Fin 3) (c : Fin 4) :
    p.toMatrix.entry r c = p.table r c := by
  rw [toMatrix, DenseMatrix.entry_ofFn _ (by omega) c.isLt]
  fin_cases r <;> fin_cases c <;> rfl

theorem lastRow_toMatrix (p : BursaWolf α) {c : Nat} (hc : c < 4) :
    p.toMatrix.entry 3 c = if c = 3 then 1 else 0 := by
  rw [toMatrix, DenseMatrix.entry_ofFn _ (by decide) hc]
  interval_cases c <;> rfl

variable {m : DenseMatrix α} {target : Nat}

/-- A shift is read from every affine matrix with four rows and columns. -/
theorem ofMatrix?_eq_some (hrows : m.rows = 4) (hcols : m.cols = 4) (haffine : m.isAffine = true) :
    ofMatrix? target m = some
      { target
        dx := m.entry 0 3
        dy := m.entry 1 3
        dz := m.entry 2 3
        ex := skewOf m 2 1 / (Angular.arcSecond * scaleOf m)
        ey := skewOf m 0 2 / (Angular.arcSecond * scaleOf m)
        ez := skewOf m 1 0 / (Angular.arcSecond * scaleOf m)
        ppm := (scaleOf m - 1) * million } := by
  rw [ofMatrix?, hrows, hcols, haffine]
  rfl

variable [Scalar.Exact α] {p q : BursaWolf α}

theorem isAffine_toMatrix (p : BursaWolf α) : p.toMatrix.isAffine = true :=
  DenseMatrix.isAffine_iff.2 ⟨(by decide : 0 < 4), (by decide : 0 < 4), fun _ hc =>
    p.lastRow_toMatrix hc⟩

/-- An affine matrix is the matrix of a shift when it has the entries of its table. -/
theorem toMatrix_eq_iff (hrows : m.rows = 4) (hcols : m.cols = 4) (haffine : m.isAffine = true) :
    p.toMatrix = m ↔ ∀ r c, p.table r c = m.entry (r : Fin 3) (c : Fin 4) := by
  constructor
  · rintro rfl r c
    exact (p.entry_toMatrix r c).symm
  · intro htable
    -- The last row is that of every affine matrix, so that only the table can differ.
    obtain ⟨-, -, hlast⟩ := DenseMatrix.isAffine_iff.1 haffine
    refine DenseMatrix.ext_entry hrows.symm hcols.symm fun r c hr hc => ?_
    change r < 4 at hr
    change c < 4 at hc
    rcases Nat.lt_succ_iff_lt_or_eq.1 hr with hr | rfl
    · exact (p.entry_toMatrix ⟨r, hr⟩ ⟨c, hc⟩).trans (htable ⟨r, hr⟩ ⟨c, hc⟩)
    · have hentry := hlast c (by omega)
      rw [hrows, hcols] at hentry
      rw [p.lastRow_toMatrix hc, hentry]

/-! ## Means and halves -/

theorem skewOf_swap (m : DenseMatrix α) (r c : Nat) : skewOf m c r = -skewOf m r c := by
  rw [skewOf, skewOf, ← mul_neg, neg_sub]

variable [Scalar.Counting α]

omit [Scalar.Exact α] in
theorem million_ne_zero : (million : α) ≠ 0 := Scalar.Counting.ofNat_ne_zero (by decide)

theorem scale_eq_zero_iff : p.scale = 0 ↔ p.ppm = -million := by
  have hmillion : (million : α) ≠ 0 := million_ne_zero
  rw [scale, add_comm, add_eq_zero_iff_eq_neg, div_eq_iff hmillion, neg_one_mul]

/-- The mean of a constant diagonal. -/
theorem scaleOf_eq {s : α} (h : ∀ r < 3, m.entry r r = s) : scaleOf m = s := by
  have hthree : (Scalar.ofNat 3 : α) ≠ 0 := Scalar.Counting.ofNat_ne_zero (by decide)
  rw [scaleOf, h 0 (by decide), h 1 (by decide), h 2 (by decide), div_eq_iff hthree,
    Scalar.ofNat_eq_cast]
  push_cast
  ring

theorem scaleOf_ne_zero (h : m.entry 0 0 + m.entry 1 1 + m.entry 2 2 ≠ 0) : scaleOf m ≠ 0 :=
  div_ne_zero h (Scalar.Counting.ofNat_ne_zero (by decide))

/-- An entry is half of its difference from the opposite one exactly when the two add up to zero. -/
theorem skewOf_eq_iff {r c : Nat} : skewOf m r c = m.entry r c ↔ m.entry c r = -m.entry r c := by
  have htwo : (Scalar.ofNat 2 : α) ≠ 0 := Scalar.Counting.ofNat_ne_zero (by decide)
  rw [skewOf, one_div_mul_eq_div, div_eq_iff htwo, Scalar.ofNat_eq_cast]
  push_cast
  constructor <;> intro h <;> linear_combination -h

/-! ## From the shift to the matrix and back -/

/-- The diagonal is constant and the part beside it is antisymmetric, as in a rotation by small
angles with a change of scale. -/
structure IsSimilarity (m : DenseMatrix α) : Prop where
  diagonal : ∀ r < 3, ∀ c < 3, m.entry r r = m.entry c c
  antisymmetric : ∀ r < 3, ∀ c < 3, r ≠ c → m.entry c r = -m.entry r c

omit [Scalar.Counting α] in
theorem isSimilarity_toMatrix (p : BursaWolf α) : IsSimilarity p.toMatrix where
  diagonal r hr c hc := by
    rw [p.entry_toMatrix ⟨r, hr⟩ ⟨r, by omega⟩, p.entry_toMatrix ⟨c, hc⟩ ⟨c, by omega⟩]
    interval_cases r <;> interval_cases c <;> rfl
  antisymmetric r hr c hc hne := by
    rw [p.entry_toMatrix ⟨r, hr⟩ ⟨c, by omega⟩, p.entry_toMatrix ⟨c, hc⟩ ⟨r, by omega⟩]
    interval_cases r <;> interval_cases c <;> simp [table] at hne ⊢

/-- Reading the matrix of a shift gives the shift again. -/
theorem ofMatrix?_toMatrix (harc : (Angular.arcSecond : α) ≠ 0) (hppm : p.ppm ≠ -million) :
    ofMatrix? target p.toMatrix = some { p with target } := by
  have hmillion : (million : α) ≠ 0 := million_ne_zero
  have hturn : Angular.arcSecond * p.scale ≠ 0 := mul_ne_zero harc (mt scale_eq_zero_iff.1 hppm)
  have hscale : scaleOf p.toMatrix = p.scale := scaleOf_eq fun r hr => by
    rw [p.entry_toMatrix ⟨r, hr⟩ ⟨r, by omega⟩]
    interval_cases r <;> rfl
  -- The matrix is antisymmetric, so that each rotation is read from a single entry.
  have hskew : ∀ r c : Fin 3, r ≠ c → skewOf p.toMatrix r c = p.table r c.castSucc :=
    fun r c hne => by
      rw [← p.entry_toMatrix r c.castSucc]
      exact skewOf_eq_iff.2
        (p.isSimilarity_toMatrix.antisymmetric r r.isLt c c.isLt (Fin.val_ne_of_ne hne))
  have hex : skewOf p.toMatrix 2 1 = p.ex * p.turn := hskew 2 1 (by decide)
  have hey : skewOf p.toMatrix 0 2 = p.ey * p.turn := hskew 0 2 (by decide)
  have hez : skewOf p.toMatrix 1 0 = p.ez * p.turn := hskew 1 0 (by decide)
  have hdx : p.toMatrix.entry 0 3 = p.dx := p.entry_toMatrix 0 3
  have hdy : p.toMatrix.entry 1 3 = p.dy := p.entry_toMatrix 1 3
  have hdz : p.toMatrix.entry 2 3 = p.dz := p.entry_toMatrix 2 3
  have hdifference : (p.scale - 1) * million = p.ppm := by
    rw [scale, add_sub_cancel_left, div_mul_cancel₀ _ hmillion]
  rw [ofMatrix?_eq_some rfl rfl p.isAffine_toMatrix, hscale, hex, hey, hez, hdx, hdy, hdz, turn,
    mul_div_cancel_right₀ _ hturn, mul_div_cancel_right₀ _ hturn, mul_div_cancel_right₀ _ hturn,
    hdifference]

/-- Shifts with the same matrix have the same parameters. -/
theorem toList_eq_of_toMatrix_eq (harc : (Angular.arcSecond : α) ≠ 0) (hppm : p.ppm ≠ -million)
    (h : p.toMatrix = q.toMatrix) : p.toList = q.toList := by
  -- The scales agree, so that the scale of the other shift is not zero, either.
  have hscale : p.scale = q.scale :=
    (p.entry_toMatrix 0 0).symm.trans ((congrArg (·.entry 0 0) h).trans (q.entry_toMatrix 0 0))
  have hppm' : q.ppm ≠ -million := fun hq =>
    hppm (scale_eq_zero_iff.1 (hscale.trans (scale_eq_zero_iff.2 hq)))
  have hread : ofMatrix? 0 p.toMatrix = some { p with target := 0 } :=
    ofMatrix?_toMatrix harc hppm
  rw [h, ofMatrix?_toMatrix harc hppm'] at hread
  exact (congrArg toList (Option.some.inj hread)).symm

section

variable (harc : (Angular.arcSecond : α) ≠ 0)
  (htrace : m.entry 0 0 + m.entry 1 1 + m.entry 2 2 ≠ 0) (hrows : m.rows = 4) (hcols : m.cols = 4)
  (haffine : m.isAffine = true) (h : ofMatrix? target m = some p)

include harc htrace hrows hcols haffine h

/-- The table of a shift that was read from a matrix: the mean of the diagonal takes the place of
each diagonal entry, and half a difference the place of each entry beside it. -/
theorem table_of_ofMatrix? (r : Fin 3) (c : Fin 4) :
    p.table r c = if (c : Nat) = 3 then m.entry r 3 else
      if (r : Nat) = c then scaleOf m else skewOf m r c := by
  rw [ofMatrix?_eq_some hrows hcols haffine] at h
  cases h
  have hmillion : (million : α) ≠ 0 := million_ne_zero
  -- The scale is not zero, so that what was divided by it comes back.
  have hturn : Angular.arcSecond * scaleOf m ≠ 0 := mul_ne_zero harc (scaleOf_ne_zero htrace)
  have hscale : 1 + (scaleOf m - 1) * million / million = scaleOf m := by
    rw [mul_div_cancel_right₀ _ hmillion, add_sub_cancel]
  have hrotation : ∀ x : α, x / (Angular.arcSecond * scaleOf m) *
      (Angular.arcSecond * scaleOf m) = x := fun x => div_mul_cancel₀ x hturn
  have hnegated : ∀ x : α, -(x / (Angular.arcSecond * scaleOf m)) *
      (Angular.arcSecond * scaleOf m) = -x := fun x => by rw [neg_mul, hrotation]
  -- Twelve entries, each by its own formula.
  fin_cases r <;> fin_cases c <;>
    simp [table, turn, scale, hscale, hrotation, hnegated, skewOf_swap m 1 0, skewOf_swap m 0 2,
      skewOf_swap m 2 1]

theorem toMatrix_of_ofMatrix?_iff : p.toMatrix = m ↔ IsSimilarity m := by
  have htable := table_of_ofMatrix? harc htrace hrows hcols haffine h
  rw [toMatrix_eq_iff hrows hcols haffine]
  constructor
  · -- If the matrix is that of the shift, its diagonal is the scale, and its skew part the rest.
    intro hentries
    have hdiagonal : ∀ r < 3, scaleOf m = m.entry r r := fun r hr => by
      rw [← hentries ⟨r, hr⟩ ⟨r, by omega⟩, htable, if_neg (by simp; omega), if_pos rfl]
    refine ⟨fun r hr c hc => (hdiagonal r hr).symm.trans (hdiagonal c hc),
      fun r hr c hc hne => skewOf_eq_iff.1 ?_⟩
    rw [← hentries ⟨r, hr⟩ ⟨c, by omega⟩, htable, if_neg (by simp; omega), if_neg (by simpa)]
  · intro hsimilar r c
    -- Conversely, a mean of equal numbers is each of them, and so is half a difference of opposite
    -- ones.
    rw [htable]
    split_ifs with hlast hdiagonal
    · rw [hlast]
    · rw [← hdiagonal]
      exact scaleOf_eq fun r' hr' => hsimilar.diagonal r' hr' r r.isLt
    · exact skewOf_eq_iff.2 (hsimilar.antisymmetric r r.isLt c (by omega) hdiagonal)

end

/-- In exact arithmetic with characteristic zero and an arc-second that is not zero, a shift can be
read from its matrix again, if its scale is not zero: its scale difference is not minus one million.
So different shifts never share a matrix. From an affine matrix whose trace is not zero some shift
is always read. It has the matrix that it was read from exactly when the diagonal is constant and
the part beside the diagonal is antisymmetric. -/
theorem toMatrix_round_trip (harc : (Angular.arcSecond : α) ≠ 0) :
    (∀ (p : BursaWolf α) (target : Nat), p.ppm ≠ -million →
      (p.toMatrix.rows = 4 ∧ p.toMatrix.cols = 4 ∧ p.toMatrix.isAffine = true) ∧
        ofMatrix? target p.toMatrix = some { p with target }) ∧
    (∀ p q : BursaWolf α, p.ppm ≠ -million → p.toMatrix = q.toMatrix → p.toList = q.toList) ∧
    ∀ (m : DenseMatrix α) (target : Nat), m.rows = 4 → m.cols = 4 → m.isAffine = true →
      m.entry 0 0 + m.entry 1 1 + m.entry 2 2 ≠ 0 →
        ∃ p, ofMatrix? target m = some p ∧ (p.toMatrix = m ↔ IsSimilarity m) := by
  refine ⟨fun p target hppm => ⟨⟨rfl, rfl, p.isAffine_toMatrix⟩, ofMatrix?_toMatrix harc hppm⟩,
    fun p q hppm h => toList_eq_of_toMatrix_eq harc hppm h,
    fun m target hrows hcols haffine htrace => ?_⟩
  have hread := @ofMatrix?_eq_some _ _ m target hrows hcols haffine
  exact ⟨_, hread, toMatrix_of_ofMatrix?_iff harc htrace hrows hcols haffine hread⟩

/-- A shift with three rotations at once. -/
def turned : BursaWolf ℚ := ⟨2, 10, -20, 30, 206265, -412530, 206265 / 2, 1000000⟩

/-- A shear along the first axis. -/
def sheared : DenseMatrix ℚ :=
  .ofFn 4 4 fun r c => if r = c then 1 else if r = 0 ∧ c = 1 then 2 else 0

/-- All seven parameters are found again. The shear is taken for a rotation, whose matrix is
another one. -/
theorem toMatrix_round_trip_turned :
    (Angular.arcSecond : ℚ) ≠ 0 ∧
    (turned.ppm ≠ -million ∧ ofMatrix? 5 turned.toMatrix = some { turned with target := 5 }) ∧
    (sheared.rows = 4 ∧ sheared.cols = 4 ∧ sheared.isAffine = true ∧
      sheared.entry 0 0 + sheared.entry 1 1 + sheared.entry 2 2 ≠ 0) ∧
    ∃ p, ofMatrix? 5 sheared = some p ∧ p.toMatrix ≠ sheared := by
  -- The numbers are rational, so that each condition is evaluated.
  have harc : (Angular.arcSecond : ℚ) ≠ 0 := by decide +kernel
  have hppm : turned.ppm ≠ -million := by decide +kernel
  have haffine : sheared.isAffine = true := by decide +kernel
  have htrace : sheared.entry 0 0 + sheared.entry 1 1 + sheared.entry 2 2 ≠ 0 := by decide +kernel
  obtain ⟨hshift, -, hmatrix⟩ := toMatrix_round_trip harc
  obtain ⟨p, hp, hsimilar⟩ := hmatrix sheared 5 rfl rfl haffine htrace
  refine ⟨harc, ⟨hppm, (hshift turned 5 hppm).2⟩, ⟨rfl, rfl, haffine, htrace⟩, p, hp, fun h => ?_⟩
  exact absurd ((hsimilar.1 h).antisymmetric 0 (by decide) 1 (by decide) (by decide))
    (by decide +kernel)

end CoordTransform.BursaWolf
