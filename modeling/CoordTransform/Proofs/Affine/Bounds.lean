import CoordTransform.Proofs.Affine.Matrix
import CoordTransform.Proofs.Extended

/-!
# Images of Boxes

The image of a box under an affine map need not be a box. It is covered by one that is found from
the images of the four corners alone: on a box, an affine function is least at some corner and
greatest at another, so that the cover holds the images of all points. Each of its sides goes
through the image of a corner, so that no smaller box does.

Points, maps and boxes with rational coordinates are read as `Extended` ones, since the cover is
gathered from the empty box with its infinite corners.
-/

namespace CoordTransform

/-! ## Rational points, boxes and maps -/

def Point.lift (p : Point ℚ) : Point Extended := ⟨.finite p.x, .finite p.y⟩

def BoundingBox.lift (b : BoundingBox ℚ) : BoundingBox Extended := ⟨b.lower.lift, b.upper.lift⟩

namespace AffineCoefficients

def lift (c : AffineCoefficients ℚ) : AffineCoefficients Extended :=
  ⟨.finite c.m00, .finite c.m01, .finite c.m02, .finite c.m10, .finite c.m11, .finite c.m12⟩

theorem determinant_lift (c : AffineCoefficients ℚ) :
    c.lift.determinant = .finite c.determinant := by
  simp only [determinant, lift, Extended.finite_mul, Extended.finite_sub]

/-- Cramer's rule divides by a determinant that is not zero. -/
theorem inverse?_lift (c : AffineCoefficients ℚ) :
    c.lift.inverse? = c.inverse?.map fun d => d.lift := by
  have hfinite : Scalar.isFinite (Extended.finite c.determinant) = true := rfl
  unfold inverse?
  rw [determinant_lift]
  dsimp only
  -- Both sides test the same determinant.
  by_cases hd : c.determinant = 0
  · rw [if_pos (by simp [Extended.isZero_finite, hd]), if_pos (by simp [hd])]
    rfl
  · rw [if_neg (by simp [Extended.isZero_finite, hfinite, hd]), if_neg (by simp [hd])]
    simp only [lift, Extended.finite_neg, Extended.finite_mul, Extended.finite_sub,
      Extended.finite_div hd, Option.map_some]

end AffineCoefficients

namespace Affine

/-- The map with the same coefficients, and the same inverse if it is known. -/
def lift (a : Affine ℚ) : Affine Extended :=
  { a.toAffineCoefficients.lift with knownInverse := a.knownInverse.map fun c => c.lift }

theorem apply_lift (a : Affine ℚ) (p : Point ℚ) : a.lift.apply p.lift = (a.apply p).lift := by
  simp only [apply, lift, AffineCoefficients.lift, AffineCoefficients.apply, Point.lift,
    Extended.finite_mul, Extended.finite_add]

/-- Inverses are found among rational maps. -/
theorem exists_inverse_lift {a : Affine ℚ} (h : a.lift.isInvertible = true) :
    ∃ b, a.inverse = .ok b ∧ a.lift.inverse = .ok b.lift := by
  -- A remembered inverse is lifted with the map, and a computed one is computed alike.
  have hcoefficients : (a.lift.knownInverse <|> a.lift.toAffineCoefficients.inverse?) =
      (a.knownInverse <|> a.toAffineCoefficients.inverse?).map fun c => c.lift := by
    cases hknown : a.knownInverse with
    | some c => simp [lift, hknown]
    | none => simpa [lift, hknown] using a.toAffineCoefficients.inverse?_lift
  cases hc : (a.knownInverse <|> a.toAffineCoefficients.inverse?) with
  | some c =>
    rw [hc] at hcoefficients
    exact ⟨_, inverse_of_some hc, inverse_of_some hcoefficients⟩
  | none =>
    -- Without an inverse of the rational map there is none of the lifted one either.
    rw [isInvertible_eq, hcoefficients, hc] at h
    cases h

end Affine

namespace BoundingBox

theorem isEmpty_lift (b : BoundingBox ℚ) : b.lift.isEmpty = b.isEmpty := rfl

theorem corners_lift (b : BoundingBox ℚ) : b.lift.corners = b.corners.map fun p => p.lift := rfl

theorem expand_lift (b : BoundingBox ℚ) (p : Point ℚ) :
    b.lift.expand p.lift = (b.expand p).lift := by
  simp only [expand, lift, Point.lift, Extended.least_finite, Extended.greatest_finite]

/-- Whatever the first point is, the infinite corners give way to it. -/
theorem expand_empty (p : Point ℚ) : empty.expand p.lift = lift ⟨p, p⟩ := by
  simp only [expand, empty, lift, Point.lift, Extended.least_infinity,
    Extended.greatest_neg_infinity]

/-! ## Points of a box -/

/-- The points of a box, with its border. -/
def Contains {α : Type} [Scalar α] (b : BoundingBox α) (p : Point α) : Prop :=
  (Scalar.numLe b.lower.x p.x = true ∧ Scalar.numLe p.x b.upper.x = true) ∧
    (Scalar.numLe b.lower.y p.y = true ∧ Scalar.numLe p.y b.upper.y = true)

variable {b c : BoundingBox ℚ} {p : Point ℚ} {ps qs : List (Point ℚ)}

theorem contains_iff : b.Contains p ↔
    (b.lower.x ≤ p.x ∧ p.x ≤ b.upper.x) ∧ (b.lower.y ≤ p.y ∧ p.y ≤ b.upper.y) := by
  change ((decide _ = true ∧ decide _ = true) ∧ (decide _ = true ∧ decide _ = true)) ↔ _
  simp only [decide_eq_true_iff]

theorem isEmpty_eq_false_iff :
    b.isEmpty = false ↔ b.lower.x ≤ b.upper.x ∧ b.lower.y ≤ b.upper.y := by
  change (decide (b.upper.x < b.lower.x) || decide (b.upper.y < b.lower.y)) = false ↔ _
  simp only [Bool.or_eq_false_iff, decide_eq_false_iff_not, not_lt]

theorem mem_corners : p ∈ b.corners ↔
    (p.x = b.lower.x ∨ p.x = b.upper.x) ∧ (p.y = b.lower.y ∨ p.y = b.upper.y) := by
  obtain ⟨x, y⟩ := p
  obtain ⟨⟨lx, ly⟩, ⟨ux, uy⟩⟩ := b
  simp only [corners, List.mem_cons, List.not_mem_nil, or_false, Point.mk.injEq]
  tauto

/-- A box that is not empty contains its corners. -/
theorem contains_corner (hb : b.isEmpty = false) (hp : p ∈ b.corners) : b.Contains p := by
  obtain ⟨hx, hy⟩ := isEmpty_eq_false_iff.1 hb
  obtain ⟨hpx, hpy⟩ := mem_corners.1 hp
  refine contains_iff.2 ⟨?_, ?_⟩
  · rcases hpx with h | h <;> simp [h, hx]
  · rcases hpy with h | h <;> simp [h, hy]

theorem isEmpty_of_contains (h : b.Contains p) : b.isEmpty = false := by
  obtain ⟨⟨hlx, hux⟩, hly, huy⟩ := contains_iff.1 h
  exact isEmpty_eq_false_iff.2 ⟨hlx.trans hux, hly.trans huy⟩

/-! ## Boxes around points -/

/-- The smallest box around points: on each axis, its bounds are the least and the greatest of
their coordinates. -/
structure Spans (b : BoundingBox ℚ) (s : Set (Point ℚ)) : Prop where
  lowerX : IsLeast (Point.x '' s) b.lower.x
  lowerY : IsLeast (Point.y '' s) b.lower.y
  upperX : IsGreatest (Point.x '' s) b.upper.x
  upperY : IsGreatest (Point.y '' s) b.upper.y

theorem Spans.contains {s : Set (Point ℚ)} (h : b.Spans s) (hp : p ∈ s) : b.Contains p := by
  have hx := Set.mem_image_of_mem Point.x hp
  have hy := Set.mem_image_of_mem Point.y hp
  exact contains_iff.2 ⟨⟨h.lowerX.2 hx, h.upperX.2 hx⟩, h.lowerY.2 hy, h.upperY.2 hy⟩

theorem Spans.single (p : Point ℚ) : Spans ⟨p, p⟩ {p} where
  lowerX := by rw [Set.image_singleton]; exact isLeast_singleton
  lowerY := by rw [Set.image_singleton]; exact isLeast_singleton
  upperX := by rw [Set.image_singleton]; exact isGreatest_singleton
  upperY := by rw [Set.image_singleton]; exact isGreatest_singleton

theorem isLeast_insert_least {xs : Set ℚ} {l : ℚ} (h : IsLeast xs l) (x : ℚ) :
    IsLeast (insert x xs) (Scalar.least l x) := by
  rw [Rational.least_eq_min, min_comm]
  exact h.insert x

theorem isGreatest_insert_greatest {xs : Set ℚ} {u : ℚ} (h : IsGreatest xs u) (x : ℚ) :
    IsGreatest (insert x xs) (Scalar.greatest u x) := by
  rw [Rational.greatest_eq_max, max_comm]
  exact h.insert x

/-- One more point moves a side only as far as the point. -/
theorem Spans.expand {s : Set (Point ℚ)} (h : b.Spans s) (p : Point ℚ) :
    (b.expand p).Spans (insert p s) where
  lowerX := by rw [Set.image_insert_eq]; exact isLeast_insert_least h.lowerX p.x
  lowerY := by rw [Set.image_insert_eq]; exact isLeast_insert_least h.lowerY p.y
  upperX := by rw [Set.image_insert_eq]; exact isGreatest_insert_greatest h.upperX p.x
  upperY := by rw [Set.image_insert_eq]; exact isGreatest_insert_greatest h.upperY p.y

theorem Spans.foldl_expand {s : Set (Point ℚ)} (h : b.Spans s) (ps : List (Point ℚ)) :
    (ps.foldl BoundingBox.expand b).Spans (s ∪ {p | p ∈ ps}) := by
  induction ps generalizing b s with
  | nil => simpa using h
  | cons p ps ih =>
    have hset : s ∪ {q | q ∈ p :: ps} = insert p s ∪ {q | q ∈ ps} := by
      ext q
      simp only [Set.mem_union, Set.mem_ofPred_eq, List.mem_cons, Set.mem_insert_iff]
      tauto
    -- The first point joins those that the box spans already.
    rw [hset]
    exact ih (h.expand p)

theorem foldl_expand_lift (b : BoundingBox ℚ) (ps : List (Point ℚ)) :
    (ps.map fun p => p.lift).foldl expand b.lift = (ps.foldl expand b).lift := by
  induction ps generalizing b with
  | nil => rfl
  | cons p ps ih => rw [List.map_cons, List.foldl_cons, expand_lift, ih, List.foldl_cons]

/-- The box around some points is the smallest one: the infinite corners of the empty box go away
with the first point. -/
theorem exists_ofPoints_lift {ps : List (Point ℚ)} (hps : ps ≠ []) :
    ∃ c, ofPoints (ps.map fun p => p.lift) = lift c ∧ c.Spans {p | p ∈ ps} := by
  obtain ⟨p, qs, rfl⟩ := List.exists_cons_of_ne_nil hps
  refine ⟨qs.foldl expand ⟨p, p⟩, ?_, ?_⟩
  · rw [ofPoints, List.map_cons, List.foldl_cons, expand_empty, foldl_expand_lift]
  · have hset : {q | q ∈ p :: qs} = {p} ∪ {q | q ∈ qs} := by
      ext q
      simp
    rw [hset]
    exact (Spans.single p).foldl_expand qs

/-! ## Affine functions on a box -/

/-- On an interval, a linear function is least at one of the ends. -/
theorem exists_end_le {l u x : ℚ} (hl : l ≤ x) (hu : x ≤ u) (m : ℚ) :
    ∃ e, (e = l ∨ e = u) ∧ m * e ≤ m * x := by
  rcases le_total 0 m with hm | hm
  · exact ⟨l, .inl rfl, mul_le_mul_of_nonneg_left hl hm⟩
  · exact ⟨u, .inr rfl, mul_le_mul_of_nonpos_left hu hm⟩

/-- On a box, a linear function is least at a corner. -/
theorem exists_corner_le (hp : b.Contains p) (m n : ℚ) :
    ∃ q ∈ b.corners, m * q.x + n * q.y ≤ m * p.x + n * p.y := by
  obtain ⟨⟨hlx, hux⟩, hly, huy⟩ := contains_iff.1 hp
  obtain ⟨x, hx, hmx⟩ := exists_end_le hlx hux m
  obtain ⟨y, hy, hny⟩ := exists_end_le hly huy n
  exact ⟨⟨x, y⟩, mem_corners.2 ⟨hx, hy⟩, add_le_add hmx hny⟩

/-- On a box, a linear function is greatest at a corner. -/
theorem exists_le_corner (hp : b.Contains p) (m n : ℚ) :
    ∃ q ∈ b.corners, m * p.x + n * p.y ≤ m * q.x + n * q.y := by
  obtain ⟨q, hq, hle⟩ := exists_corner_le hp (-m) (-n)
  exact ⟨q, hq, by linarith⟩

/-- What holds the images of the corners holds the images of all points. -/
theorem contains_apply {t : Affine ℚ} (hc : ∀ q ∈ b.corners, c.Contains (t.apply q))
    (hp : b.Contains p) : c.Contains (t.apply p) := by
  have himages := fun q hq => contains_iff.1 (hc q hq)
  simp only [Affine.apply, AffineCoefficients.apply] at himages
  -- Each coordinate of the image lies between those of two corners, which differ by coordinate.
  obtain ⟨qx, hqx, hlowerX⟩ := exists_corner_le hp t.m00 t.m01
  obtain ⟨qy, hqy, hlowerY⟩ := exists_corner_le hp t.m10 t.m11
  obtain ⟨rx, hrx, hupperX⟩ := exists_le_corner hp t.m00 t.m01
  obtain ⟨ry, hry, hupperY⟩ := exists_le_corner hp t.m10 t.m11
  refine contains_iff.2 ⟨⟨?_, ?_⟩, ?_, ?_⟩
  · exact (himages qx hqx).1.1.trans (add_le_add_left hlowerX t.m02)
  · exact (add_le_add_left hupperX t.m02).trans (himages rx hrx).1.2
  · exact (himages qy hqy).2.1.trans (add_le_add_left hlowerY t.m12)
  · exact (add_le_add_left hupperY t.m12).trans (himages ry hry).2.2

end BoundingBox

namespace Affine

open BoundingBox

variable {t : Affine ℚ} {b c : BoundingBox ℚ}

/-! ## Images of boxes -/

/-- The image that is computed of a box is the smallest box around the images of its corners. -/
theorem exists_applyBox_lift (t : Affine ℚ) (hb : b.isEmpty = false) :
    ∃ c : BoundingBox ℚ, t.lift.applyBox b.lift = c.lift ∧
      c.Spans {q | q ∈ b.corners.map t.apply} := by
  have hcorners : b.corners.map t.apply ≠ [] := by simp [corners]
  obtain ⟨c, hc, hspans⟩ := exists_ofPoints_lift hcorners
  have himages : b.lift.corners.map t.lift.apply =
      (b.corners.map t.apply).map fun p => p.lift := by
    rw [corners_lift, List.map_map, List.map_map]
    exact List.map_congr_left fun p _ => apply_lift t p
  -- The check for an empty box is passed, so that the box is spanned anew.
  refine ⟨c, ?_, hspans⟩
  rw [← hc, ← himages]
  exact if_neg (by simp [isEmpty_lift, hb])

/-- It contains the images of all points of the box. -/
theorem contains_of_spans (hc : c.Spans {q | q ∈ b.corners.map t.apply}) {p : Point ℚ}
    (hp : b.Contains p) : c.Contains (t.apply p) :=
  contains_apply (fun _ hq => hc.contains (List.mem_map_of_mem hq)) hp

/-- On each of its sides lies the image of a corner. -/
theorem sides_of_spans (hc : c.Spans {q | q ∈ b.corners.map t.apply}) :
    (∃ p ∈ b.corners, (t.apply p).x = c.lower.x) ∧
      (∃ p ∈ b.corners, (t.apply p).y = c.lower.y) ∧
      (∃ p ∈ b.corners, (t.apply p).x = c.upper.x) ∧
      (∃ p ∈ b.corners, (t.apply p).y = c.upper.y) := by
  have hside : ∀ {f : Point ℚ → ℚ} {v : ℚ}, v ∈ f '' {q | q ∈ b.corners.map t.apply} →
      ∃ p ∈ b.corners, f (t.apply p) = v := by
    rintro f v ⟨q, hq, rfl⟩
    obtain ⟨p, hp, rfl⟩ := List.mem_map.1 hq
    exact ⟨p, hp, rfl⟩
  exact ⟨hside hc.lowerX.1, hside hc.lowerY.1, hside hc.upperX.1, hside hc.upperY.1⟩

/-- Whatever box contains all images contains every point between the sides. -/
theorem contains_of_images (hb : b.isEmpty = false)
    (hc : c.Spans {q | q ∈ b.corners.map t.apply}) {d : BoundingBox Extended}
    (hd : ∀ p, b.Contains p → d.Contains (t.apply p).lift) {q : Point ℚ} (hq : c.Contains q) :
    d.Contains q.lift := by
  obtain ⟨⟨p₁, hp₁, hlx⟩, ⟨p₂, hp₂, hly⟩, ⟨p₃, hp₃, hux⟩, ⟨p₄, hp₄, huy⟩⟩ := sides_of_spans hc
  obtain ⟨⟨hqlx, hqux⟩, hqly, hquy⟩ := contains_iff.1 hq
  -- Each of the four corners bounds the other box on one side.
  have hcorner := fun p hp => hd p (contains_corner hb hp)
  refine ⟨⟨?_, ?_⟩, ?_, ?_⟩
  · exact Extended.numLe_trans (hcorner p₁ hp₁).1.1 (hlx.trans_le hqlx)
  · exact Extended.trans_numLe (hqux.trans_eq hux.symm) (hcorner p₃ hp₃).1.2
  · exact Extended.numLe_trans (hcorner p₂ hp₂).2.1 (hly.trans_le hqly)
  · exact Extended.trans_numLe (hquy.trans_eq huy.symm) (hcorner p₄ hp₄).2.2

/-- Taking a cover back covers the box, since the inverse takes back the image of each point. -/
theorem exists_applyInverseBox_lift (ht : t.Built) (hinvertible : t.lift.isInvertible = true)
    (hc : c.isEmpty = false) (himages : ∀ p, b.Contains p → c.Contains (t.apply p)) :
    ∃ d : BoundingBox ℚ, t.lift.applyInverseBox c.lift = .ok d.lift ∧
      ∀ p, b.Contains p → d.Contains p := by
  obtain ⟨i, hi, hlift⟩ := exists_inverse_lift hinvertible
  obtain ⟨d, hd, hspans⟩ := exists_applyBox_lift i hc
  refine ⟨d, bind_eq_ok.2 ⟨i.lift, hlift, congrArg Except.ok hd⟩, fun p hp => ?_⟩
  have hback : i.apply (t.apply p) = p := ht.apply_inverse hi p
  exact hback ▸ contains_of_spans hspans (himages p hp)

/-- The cover of a box that is not empty contains the images of all points, and no smaller box
does: each of its sides goes through the image of a corner. An empty box stays as it is. If the map
has an inverse, taking the cover back covers the box. -/
theorem applyBox_tight (t : Affine ℚ) :
    (∀ b : BoundingBox Extended, b.isEmpty = true → t.lift.applyBox b = b) ∧
    ∀ b : BoundingBox ℚ, b.isEmpty = false → ∃ c : BoundingBox ℚ,
      t.lift.applyBox b.lift = c.lift ∧
      (∀ p, b.Contains p → c.Contains (t.apply p)) ∧
      (∀ d : BoundingBox Extended, (∀ p, b.Contains p → d.Contains (t.apply p).lift) →
        ∀ q, c.Contains q → d.Contains q.lift) ∧
      ((∃ p ∈ b.corners, (t.apply p).x = c.lower.x) ∧
        (∃ p ∈ b.corners, (t.apply p).y = c.lower.y) ∧
        (∃ p ∈ b.corners, (t.apply p).x = c.upper.x) ∧
        (∃ p ∈ b.corners, (t.apply p).y = c.upper.y)) ∧
      (t.Built → t.lift.isInvertible = true → ∃ d : BoundingBox ℚ,
        t.lift.applyInverseBox c.lift = .ok d.lift ∧ ∀ p, b.Contains p → d.Contains p) := by
  refine ⟨fun b hb => if_pos hb, fun b hb => ?_⟩
  obtain ⟨c, hc, hspans⟩ := exists_applyBox_lift t hb
  have himages : ∀ p, b.Contains p → c.Contains (t.apply p) := fun p => contains_of_spans hspans
  -- The box of the images contains an image, so that taking it back is not the empty case.
  have hnonempty : c.isEmpty = false :=
    isEmpty_of_contains (himages b.lower (contains_corner hb List.mem_cons_self))
  exact ⟨c, hc, himages, fun d hd q => contains_of_images hb hspans hd, sides_of_spans hspans,
    fun ht hinvertible => exists_applyInverseBox_lift ht hinvertible hnonempty himages⟩

/-- The square between the origin and the point with both coordinates two. -/
def tile : BoundingBox ℚ := ⟨⟨0, 0⟩, ⟨2, 2⟩⟩

/-- A map with a shear in it covers the square by a wider box, and this one by one that is wider
than the square. -/
theorem applyBox_tight_halved : tile.isEmpty = false ∧ halved.Built ∧
    halved.lift.isInvertible = true ∧ ∃ c d : BoundingBox ℚ,
      halved.lift.applyBox tile.lift = c.lift ∧ c.Contains (halved.apply ⟨1, 2⟩) ∧
        halved.lift.applyInverseBox c.lift = .ok d.lift ∧ d.Contains ⟨1, 2⟩ := by
  have hnonempty : tile.isEmpty = false := by decide
  have hinvertible : halved.lift.isInvertible = true := rfl
  have hpoint : tile.Contains ⟨1, 2⟩ := contains_iff.2 (by decide)
  obtain ⟨c, hc, himages, -, -, hinverse⟩ := (applyBox_tight halved).2 tile hnonempty
  obtain ⟨d, hd, hcover⟩ := hinverse built_halved hinvertible
  exact ⟨hnonempty, built_halved, hinvertible, c, d, hc, himages _ hpoint, hd, hcover _ hpoint⟩

end Affine

end CoordTransform
