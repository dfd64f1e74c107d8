import Mathlib
import CoordTransform.Transform.Homogeneous
import CoordTransform.Proofs.Transform.Safety
import CoordTransform.Proofs.Transform.Simplification

/-!
# The Matrix of a Transform

A transform that is made of matrices is itself one homogeneous matrix: the product of those of its
steps, with unit rows around the part that a pass-through applies. In exact arithmetic the matrix
takes every point to the image that the steps give one after the other; their divisors multiply.
The divisor of a pass-through would have to multiply the copied components as well, which is why
only affine matrices, whose divisor is one, are embedded.

A transform made of affine matrices always has a matrix, which is affine again, and no divisor on
the way can be zero.
-/

namespace CoordTransform

open Finset

variable {α : Type} [Scalar α] [Scalar.Exact α]

namespace DenseMatrix

/-! ## Unit rows and affine matrices -/

/-- A row with a single one takes a component out of a vector. -/
theorem rowSum_of_unit {m : DenseMatrix α} {r k : Nat} (hk : k < m.cols)
    (h : ∀ c < m.cols, m.entry r c = if c = k then 1 else 0) (v : Nat → α) :
    m.rowSum r v = v k := by
  have hterm : ∀ c ∈ range m.cols, m.entry r c * v c = if c = k then v c else 0 := by
    intro c hc
    rw [h c (mem_range.1 hc)]
    split <;> simp
  rw [rowSum, sum_congr rfl hterm, sum_ite_eq' (range m.cols) k v, if_pos (mem_range.2 hk)]

theorem isAffine_iff {m : DenseMatrix α} : m.isAffine = true ↔
    0 < m.rows ∧ 0 < m.cols ∧
      ∀ c < m.cols, m.entry (m.rows - 1) c = if c = m.cols - 1 then 1 else 0 := by
  simp only [isAffine, Bool.and_eq_true, bne_iff_ne, ne_eq, List.all_eq_true, List.mem_range,
    Scalar.numEq_iff_eq, beq_iff_eq, and_assoc, Nat.pos_iff_ne_zero]

/-- The last row of an affine matrix gives the last component. -/
theorem rowSum_of_isAffine {m : DenseMatrix α} (h : m.isAffine = true) (v : Nat → α) :
    m.rowSum (m.rows - 1) v = v (m.cols - 1) := by
  obtain ⟨-, hcols, hlast⟩ := isAffine_iff.1 h
  exact rowSum_of_unit (by omega) hlast v

theorem isAffine_toMatrix (a : Affine α) : a.toMatrix.isAffine = true := by
  refine isAffine_iff.2 ⟨(by decide : 0 < 3), (by decide : 0 < 3), fun c hc => ?_⟩
  change c < 3 at hc
  change a.toMatrix.entry 2 c = if c = 2 then 1 else 0
  rw [Affine.toMatrix, entry_ofFn _ (by decide) hc]
  interval_cases c <;> rfl

/-- Products of affine matrices are affine. -/
theorem isAffine_product {m n : DenseMatrix α} (hm : m.isAffine = true) (hn : n.isAffine = true)
    (hfit : m.cols = n.rows) : (m.product n).isAffine = true := by
  obtain ⟨hrows, -, -⟩ := isAffine_iff.1 hm
  obtain ⟨-, hcols, hlast⟩ := isAffine_iff.1 hn
  refine isAffine_iff.2 ⟨hrows, hcols, fun c hc => ?_⟩
  change c < n.cols at hc
  calc (m.product n).entry (m.rows - 1) c
      = m.rowSum (m.rows - 1) (fun k => n.entry k c) := entry_product (by omega) hc
    _ = n.entry (n.rows - 1) c := by rw [rowSum_of_isAffine hm, hfit]
    _ = if c = n.cols - 1 then 1 else 0 := hlast c hc

end DenseMatrix

namespace Transform

open DenseMatrix

variable {m : DenseMatrix α} {leading trailing : Nat} {p q : List α}

/-! ## Parts of homogeneous vectors -/

omit [Scalar.Exact α] in
theorem homogeneous_append_left {a : List α} (b : List α) {k : Nat} (h : k < a.length) :
    homogeneous (a ++ b) k = homogeneous a k := by
  rw [homogeneous, homogeneous, List.getElem?_append_left h]

omit [Scalar.Exact α] in
theorem homogeneous_append_right (a b : List α) (k : Nat) :
    homogeneous (a ++ b) (a.length + k) = homogeneous b k := by
  rw [homogeneous, homogeneous, List.getElem?_append_right (by omega), Nat.add_sub_cancel_left]

/-! ## Embedded matrices -/

omit [Scalar.Exact α] in
theorem rows_embed (leading : Nat) (m : DenseMatrix α) (trailing : Nat) :
    (embed leading m trailing).rows = leading + (m.rows - 1) + trailing + 1 := rfl

omit [Scalar.Exact α] in
theorem cols_embed (leading : Nat) (m : DenseMatrix α) (trailing : Nat) :
    (embed leading m trailing).cols = leading + (m.cols - 1) + trailing + 1 := rfl

/-- The rows before the embedded matrix copy their components. -/
theorem rowSum_embed_leading {r : Nat} (hr : r < leading) (v : Nat → α) :
    (embed leading m trailing).rowSum r v = v r := by
  refine rowSum_of_unit (by rw [cols_embed]; omega) (fun c hc => ?_) v
  rw [cols_embed] at hc
  rw [embed, entry_ofFn _ (by omega) hc, if_pos hr]
  simp only [beq_iff_eq]

/-- The rows behind the embedded matrix copy theirs, which stand behind its source. -/
theorem rowSum_embed_trailing {j : Nat} (hj : j < trailing) (v : Nat → α) :
    (embed leading m trailing).rowSum (leading + (m.rows - 1) + j) v =
      v (leading + (m.cols - 1) + j) := by
  refine rowSum_of_unit (by rw [cols_embed]; omega) (fun c hc => ?_) v
  rw [cols_embed] at hc
  rw [embed, entry_ofFn _ (by omega) hc, if_neg (by omega), if_neg (by omega), if_pos (by omega)]
  exact if_congr (by rw [beq_iff_eq]; omega) rfl rfl

/-- The last row of an embedded matrix is that of an affine one. -/
theorem isAffine_embed (leading : Nat) (m : DenseMatrix α) (trailing : Nat) :
    (embed leading m trailing).isAffine = true := by
  refine isAffine_iff.2 ⟨by rw [rows_embed]; omega, by rw [cols_embed]; omega, fun c hc => ?_⟩
  rw [cols_embed] at hc
  rw [rows_embed, cols_embed, embed, entry_ofFn _ (by omega) hc, if_neg (by omega),
    if_neg (by omega), if_neg (by omega)]
  simp only [beq_iff_eq]

/-- The rows between them are those of the embedded matrix; its last column is the last one. -/
theorem rowSum_embed_inner {r : Nat} (hr : r < m.rows - 1) (hcols : 0 < m.cols) (v : Nat → α) :
    (embed leading m trailing).rowSum (leading + r) v =
      m.rowSum r fun k =>
        if k < m.cols - 1 then v (leading + k) else v (leading + (m.cols - 1) + trailing) := by
  obtain ⟨source, hsource⟩ : ∃ source, m.cols = source + 1 := ⟨m.cols - 1, by omega⟩
  have hentry : ∀ c < leading + source + trailing + 1,
      (embed leading m trailing).entry (leading + r) c =
        if c = leading + source + trailing then m.entry r source
        else if leading ≤ c ∧ c < leading + source then m.entry r (c - leading) else 0 := by
    intro c hc
    rw [embed, entry_ofFn _ (by omega) (by omega), if_neg (by omega), if_pos (by omega)]
    simp only [hsource, Nat.add_sub_cancel, Nat.add_sub_cancel_left, beq_iff_eq, Bool.and_eq_true,
      decide_eq_true_eq]
  -- The columns fall into those before the matrix, its own, those behind it and the last one.
  have hbefore : ∀ c ∈ range leading,
      (embed leading m trailing).entry (leading + r) c * v c = 0 := by
    intro c hc
    rw [mem_range] at hc
    rw [hentry c (by omega), if_neg (by omega), if_neg (by omega), zero_mul]
  have hbehind : ∀ c ∈ range trailing,
      (embed leading m trailing).entry (leading + r) (leading + source + c) *
        v (leading + source + c) = 0 := by
    intro c hc
    rw [mem_range] at hc
    rw [hentry _ (by omega), if_neg (by omega), if_neg (by omega), zero_mul]
  have hown : ∀ k ∈ range source,
      (embed leading m trailing).entry (leading + r) (leading + k) * v (leading + k) =
        m.entry r k * if k < source then v (leading + k)
          else v (leading + source + trailing) := by
    intro k hk
    rw [mem_range] at hk
    rw [hentry _ (by omega), if_neg (by omega), if_pos (by omega), Nat.add_sub_cancel_left,
      if_pos hk]
  rw [rowSum, rowSum, cols_embed, hsource, Nat.add_sub_cancel, sum_range_succ, sum_range_succ,
    sum_range_add, sum_range_add, sum_eq_zero hbefore, sum_eq_zero hbehind, sum_congr rfl hown,
    hentry _ (by omega), if_pos rfl, if_neg (Nat.lt_irrefl source), zero_add, add_zero]

/-- An affine map has no divisor. -/
theorem projects_iff_of_isAffine (h : m.isAffine = true) : Projects m p q ↔
    p.length + 1 = m.cols ∧ q.length + 1 = m.rows ∧
      ∀ r < m.rows, m.rowSum r (homogeneous p) = homogeneous q r := by
  constructor
  · rintro ⟨hp, hq, w, -, hrows⟩
    -- The last row gives the one behind the point on both sides.
    have hone : w = 1 := by
      have hlast := hrows (m.rows - 1) (by omega)
      rw [rowSum_of_isAffine h, homogeneous_of_le (by omega), homogeneous_of_le (by omega),
        mul_one] at hlast
      exact hlast.symm
    refine ⟨hp, hq, fun r hr => ?_⟩
    rw [hrows r hr, hone, one_mul]
  · rintro ⟨hp, hq, hrows⟩
    refine ⟨hp, hq, 1, one_ne_zero, fun r hr => ?_⟩
    rw [hrows r hr, one_mul]

/-- The embedded matrix maps the part that the matrix applies to, and copies the others. -/
theorem Projects.embed {before r s after : List α} (haffine : m.isAffine = true)
    (h : Projects m r s) :
    Projects (embed before.length m after.length) (before ++ r ++ after)
      (before ++ s ++ after) := by
  obtain ⟨hr, hs, hrows⟩ := (projects_iff_of_isAffine haffine).1 h
  have hsource : m.cols - 1 = r.length := by omega
  have htarget : m.rows - 1 = s.length := by omega
  refine (projects_iff_of_isAffine (isAffine_embed _ _ _)).2 ⟨?_, ?_, fun i hi => ?_⟩
  · rw [cols_embed, List.length_append, List.length_append, hsource]
  · rw [rows_embed, List.length_append, List.length_append, htarget]
  rw [rows_embed] at hi
  -- A row belongs to the components before, to the matrix, to the components behind or is the last.
  by_cases hleading : i < before.length
  · rw [rowSum_embed_leading hleading, List.append_assoc, List.append_assoc,
      homogeneous_append_left _ hleading, homogeneous_append_left _ hleading]
  by_cases hinner : i < before.length + s.length
  · obtain ⟨j, rfl⟩ : ∃ j, i = before.length + j := ⟨i - before.length, by omega⟩
    have hj : j < s.length := by omega
    rw [rowSum_embed_inner (by omega) (by omega), List.append_assoc before s,
      homogeneous_append_right, homogeneous_append_left _ hj, ← hrows j (by omega)]
    refine rowSum_congr fun k hk => ?_
    rw [hsource]
    split
    · next hk' =>
      rw [List.append_assoc, homogeneous_append_right, homogeneous_append_left _ hk']
    · next hk' =>
      rw [homogeneous_of_le (by simp only [List.length_append]; omega),
        homogeneous_of_le (by omega)]
  by_cases htrailing : i < before.length + s.length + after.length
  · obtain ⟨j, rfl⟩ : ∃ j, i = before.length + s.length + j :=
      ⟨i - (before.length + s.length), by omega⟩
    rw [← htarget, rowSum_embed_trailing (by omega), hsource, htarget,
      ← List.length_append, ← List.length_append, homogeneous_append_right,
      homogeneous_append_right]
  · have hlast : i = (Transform.embed before.length m after.length).rows - 1 := by
      rw [rows_embed]
      omega
    rw [hlast, rowSum_of_isAffine (isAffine_embed _ _ _), homogeneous_of_le, homogeneous_of_le]
    · rw [rows_embed, List.length_append, List.length_append]
      omega
    · rw [cols_embed, List.length_append, List.length_append]
      omega

/-! ## The matrix and the steps -/

section

omit [Scalar.Exact α]

variable {direct reverse : Operation α → Prop} {t first second inner : Transform α}

theorem toMatrix?_concatenated_eq_some : (concatenated first second).toMatrix? = some m ↔
    ∃ n k, second.toMatrix? = some n ∧ first.toMatrix? = some k ∧ n.multiply k = .ok m := by
  have hok : ∀ x : Except (TransformError α) (DenseMatrix α),
      x.toOption = some m ↔ x = .ok m := by
    rintro (e | n) <;> simp [Except.toOption]
  rw [toMatrix?]
  simp only [Option.bind_eq_bind, Option.bind_eq_some_iff, hok]
  constructor
  · rintro ⟨n, hn, k, hk, h⟩
    exact ⟨n, k, hn, hk, h⟩
  · rintro ⟨n, k, hn, hk, h⟩
    exact ⟨n, hn, k, hk, h⟩

theorem toMatrix?_passThrough_eq_some : (passThrough leading inner trailing).toMatrix? = some m ↔
    ∃ n, inner.toMatrix? = some n ∧ n.isAffine = true ∧ embed leading n trailing = m := by
  rw [toMatrix?]
  simp only [Option.bind_eq_bind, Option.bind_eq_some_iff, Option.ite_none_right_eq_some,
    Option.some.injEq]

/-- A transform with a matrix applies no operation. -/
theorem WellFormed.of_toMatrix? {direct' reverse' : Operation α → Prop}
    (ht : t.WellFormed direct reverse) (h : t.toMatrix? = some m) :
    t.WellFormed direct' reverse' := by
  induction t generalizing m with
  | affine a => exact ht
  | linear n => exact ht
  | concatenated first second ihf ihs =>
    obtain ⟨n, k, hn, hk, -⟩ := toMatrix?_concatenated_eq_some.1 h
    exact ⟨ihf ht.1 hk, ihs ht.2.1 hn, ht.2.2⟩
  | passThrough leading inner trailing ih =>
    obtain ⟨n, hn, -⟩ := toMatrix?_passThrough_eq_some.1 h
    -- A step with a matrix has no operation, and a product is made of such steps only.
    exact ih ht hn
  | operation op => cases h
  | inverseOperation op => cases h

/-- The matrix of a transform has one more row and one more column than the transform has
components, and at least two of each. -/
theorem shape_toMatrix? (ht : t.WellFormed direct reverse) (h : t.toMatrix? = some m) :
    (m.rows = t.targetDim + 1 ∧ m.cols = t.sourceDim + 1) ∧ 2 ≤ m.rows ∧ 2 ≤ m.cols := by
  induction t generalizing m with
  | affine a =>
    cases h
    exact ⟨⟨rfl, rfl⟩, (HasMatrix.affine a).two_le⟩
  | linear n =>
    cases h
    have hlinear := HasMatrix.linear ht
    exact ⟨⟨hlinear.targetDim_eq, hlinear.sourceDim_eq⟩, hlinear.two_le⟩
  | concatenated first second ihf ihs =>
    obtain ⟨n, k, hn, hk, hm⟩ := toMatrix?_concatenated_eq_some.1 h
    obtain ⟨⟨hnrows, hncols⟩, hn2⟩ := ihs ht.2.1 hn
    obtain ⟨⟨hkrows, hkcols⟩, hk2⟩ := ihf ht.1 hk
    -- The factors fit, so that the product has the rows of the second and the columns of the first
    -- one.
    rw [multiply_eq_ok (by rw [hncols, hkrows, ht.2.2])] at hm
    cases hm
    exact ⟨⟨hnrows, hkcols⟩, hn2.1, hk2.2⟩
  | passThrough leading inner trailing ih =>
    obtain ⟨n, hn, -, rfl⟩ := toMatrix?_passThrough_eq_some.1 h
    obtain ⟨⟨hrows, hcols⟩, hn2⟩ := ih ht hn
    -- The embedded matrix has a row and a column more for every component that is copied.
    rw [rows_embed, cols_embed, targetDim, sourceDim]
    omega
  | operation op => cases h
  | inverseOperation op => cases h

end

variable {ops direct reverse : Operation α → Prop} {ρ : Reading α} {t : Transform α}

/-- The matrix of a transform takes the points to each other that the steps relate. -/
theorem projects_of_relates (ht : t.WellFormed direct reverse) (h : t.toMatrix? = some m)
    (hpq : t.Relates ρ p q) : Projects m p q := by
  induction t generalizing m p q with
  | affine a =>
    cases h
    exact relates_affine_iff.1 hpq
  | linear n =>
    cases h
    exact (HasMatrix.linear ht).relates_iff.1 hpq
  | concatenated first second ihf ihs =>
    obtain ⟨n, k, hn, hk, hm⟩ := toMatrix?_concatenated_eq_some.1 h
    obtain ⟨r, hf, hs⟩ := hpq
    -- The matrices fit, since the middle point has both dimensions.
    have hfirst := ihf ht.1 hk hf
    have hsecond := ihs ht.2.1 hn hs
    rw [multiply_eq_ok (hsecond.1.symm.trans hfirst.2.1)] at hm
    cases hm
    exact hfirst.product hsecond
  | passThrough leading inner trailing ih =>
    obtain ⟨n, hn, haffine, rfl⟩ := toMatrix?_passThrough_eq_some.1 h
    obtain ⟨before, r, s, after, rfl, rfl, rfl, rfl, hinner⟩ := hpq
    exact (ih ht hn hinner).embed haffine
  | operation op => cases h
  | inverseOperation op => cases h

/-! ## Affine transforms -/

/-- Every matrix leaf is affine, and no leaf is an operation. -/
def MadeOfAffine : Transform α → Prop
  | affine _ => True
  | linear m => m.isAffine = true
  | concatenated first second => first.MadeOfAffine ∧ second.MadeOfAffine
  | passThrough _ inner _ => inner.MadeOfAffine
  | operation _ => False
  | inverseOperation _ => False

/-- A transform made of affine matrices has a matrix, which is affine. -/
theorem MadeOfAffine.exists_toMatrix? (h : t.MadeOfAffine) (ht : t.WellFormed direct reverse) :
    ∃ m, t.toMatrix? = some m ∧ m.isAffine = true := by
  induction t with
  | affine a => exact ⟨a.toMatrix, rfl, isAffine_toMatrix a⟩
  | linear m => exact ⟨m, rfl, h⟩
  | concatenated first second ihf ihs =>
    obtain ⟨k, hk, hkaffine⟩ := ihf h.1 ht.1
    obtain ⟨n, hn, hnaffine⟩ := ihs h.2 ht.2.1
    -- The last row of a product is that of affine factors again.
    have hfit : n.cols = k.rows := by
      rw [(shape_toMatrix? ht.2.1 hn).1.2, (shape_toMatrix? ht.1 hk).1.1, ht.2.2]
    exact ⟨n.product k, toMatrix?_concatenated_eq_some.2 ⟨n, k, hn, hk, multiply_eq_ok hfit⟩,
      isAffine_product hnaffine hkaffine hfit⟩
  | passThrough leading inner trailing ih =>
    obtain ⟨n, hn, haffine⟩ := ih h ht
    exact ⟨_, toMatrix?_passThrough_eq_some.2 ⟨n, hn, haffine, rfl⟩, isAffine_embed _ _ _⟩
  | operation op => exact h.elim
  | inverseOperation op => exact h.elim

/-- The divisor of an affine matrix is one. -/
theorem applyMatrix_of_isAffine (h : m.isAffine = true) (hp : p.length + 1 = m.cols) :
    ∃ q, applyMatrix m p = .ok q := by
  have hone : rowValue m (m.rows - 1) p = 1 := by
    rw [rowValue_eq_rowSum hp, rowSum_of_isAffine h, homogeneous_of_le (by omega)]
  unfold applyMatrix
  rw [hone, if_neg (by rw [Scalar.isUsable_iff]; exact one_ne_zero)]
  exact ⟨_, rfl⟩

/-- A transform made of affine matrices gives every point of its space an image. -/
theorem MadeOfAffine.exists_relates (h : t.MadeOfAffine) (ht : t.WellFormed direct reverse)
    (hp : p.length = t.sourceDim) : ∃ q, t.Relates ρ p q := by
  induction t generalizing p with
  | affine a =>
    obtain ⟨x, y, rfl⟩ := List.length_eq_two.1 hp
    -- An affine matrix divides by one, so it gives every point an image.
    exact ⟨_, x, y, rfl, rfl⟩
  | linear m =>
    have hcols : p.length + 1 = m.cols := by rw [hp, (HasMatrix.linear ht).sourceDim_eq]
    obtain ⟨q, hq⟩ := applyMatrix_of_isAffine h hcols
    exact ⟨q, hcols, hq⟩
  | concatenated first second ihf ihs =>
    obtain ⟨r, hr⟩ := ihf h.1 ht.1 hp
    -- The image of the first step is where the second one starts.
    obtain ⟨q, hq⟩ := ihs h.2 ht.2.1 (hr.length.2.trans ht.2.2)
    exact ⟨q, r, hr, hq⟩
  | passThrough leading inner trailing ih =>
    obtain ⟨before, r, after, rfl, hbefore, hr, hafter⟩ := exists_parts hp
    obtain ⟨s, hs⟩ := ih h ht hr
    exact ⟨_, before, r, s, after, hbefore, hafter, rfl, rfl, hs⟩
  | operation op => exact h.elim
  | inverseOperation op => exact h.elim

/-! ## Faithful matrices -/

/-- The matrix of a built transform has the dimensions of the transform, each with one more, and
the transform of the matrix has the images of the transform. A transform made of affine matrices
has a matrix, an affine one, and gives every point of its space an image. -/
theorem toMatrix?_faithful (ht : t.Built ops) :
    (∀ m, t.toMatrix? = some m →
      m.rows = t.targetDim + 1 ∧ m.cols = t.sourceDim + 1 ∧
        ∃ u, ofMatrix m = .ok u ∧ ∀ p q, t.apply p = .ok q → u.apply p = .ok q) ∧
    (t.MadeOfAffine → ∃ m, t.toMatrix? = some m ∧ m.isAffine = true ∧
      ∀ p, p.length = t.sourceDim → ∃ q, t.apply p = .ok q) := by
  refine ⟨fun m hm => ?_, fun haffine => ?_⟩
  · obtain ⟨⟨hrows, hcols⟩, htwo⟩ := shape_toMatrix? ht.sound hm
    obtain ⟨u, hu⟩ := exists_ofMatrix htwo
    refine ⟨hrows, hcols, u, hu, fun p q hq => ?_⟩
    -- No operation is applied, so that nothing has to be known of operations.
    have hfree : t.WellFormed (fun _ => False) (fun _ => False) := ht.sound.of_toMatrix? hm
    have hpq : t.Relates .computed p q := relates_of_apply (Reading.computed_covers _ _)
      (fun _ => False.elim) (fun _ => False.elim) hfree hq
    have hpq' : u.Relates .computed p q :=
      (relates_ofMatrix_iff hu).2 (projects_of_relates hfree hm hpq)
    exact hpq'.apply
  · obtain ⟨m, hm, hmaffine⟩ := haffine.exists_toMatrix? ht.sound
    refine ⟨m, hm, hmaffine, fun p hp => ?_⟩
    obtain ⟨q, hq⟩ := haffine.exists_relates (ρ := .computed) ht.sound hp
    exact ⟨q, hq.apply⟩

/-- The map `x ↦ (2 x + 1, 3 x)` of the line into the plane. -/
def mapIntoPlane : DenseMatrix ℚ :=
  .ofFn 3 2 fun r c => if r = 0 then 2 - c else if r = 1 then 3 - 3 * c else c

/-- The map `(w, x, y, z) ↦ (w + x + y + z) / (w + 1)`. -/
def mapOntoLine : DenseMatrix ℚ :=
  .ofFn 2 5 fun r c => if r = 0 ∧ c < 4 ∨ r = 1 ∧ c % 4 = 0 then 1 else 0

/-- The map into the plane with a component before it and one behind. -/
def widenedMap : Transform ℚ := .passThrough 1 (.linear mapIntoPlane) 1

theorem widenedMap_built : widenedMap.Built fun _ => True :=
  .passThrough 1 1 (.ofMatrix (m := mapIntoPlane) (by with_unfolding_all rfl))

/-- The widened map, and a projection onto the line after it. -/
def projectedMap : Transform ℚ := .concatenated widenedMap (.linear mapOntoLine)

theorem projectedMap_built : projectedMap.Built fun _ => True :=
  .concatenate widenedMap_built (.ofMatrix (m := mapOntoLine) (by with_unfolding_all rfl)) rfl

/-- The projection has one matrix with two rows; the widened map is affine. -/
theorem toMatrix?_faithful_projected :
    (∃ m u, projectedMap.toMatrix? = some m ∧ (m.rows, m.cols) = (2, 4) ∧ ofMatrix m = .ok u ∧
      projectedMap.apply [1, 2, 3] = .ok [15 / 2] ∧ u.apply [1, 2, 3] = .ok [15 / 2]) ∧
    ∃ q, widenedMap.apply [1, 2, 3] = .ok q := by
  have himage : projectedMap.apply [1, 2, 3] = .ok [15 / 2] := by with_unfolding_all rfl
  have hmatrix : projectedMap.toMatrix?.isSome = true := by with_unfolding_all rfl
  obtain ⟨m, hm⟩ := Option.isSome_iff_exists.1 hmatrix
  obtain ⟨hrows, hcols, u, hu, himages⟩ := (toMatrix?_faithful projectedMap_built).1 m hm
  have haffine : mapIntoPlane.isAffine = true := by with_unfolding_all rfl
  obtain ⟨-, -, -, htotal⟩ := (toMatrix?_faithful widenedMap_built).2 haffine
  exact ⟨⟨m, u, hm, Prod.ext hrows hcols, hu, himage, himages _ _ himage⟩, htotal _ rfl⟩

end Transform

end CoordTransform
