import CoordTransform.Proofs.Datum.ClosedForm
import CoordTransform.Proofs.Matrix.Determinant

/-!
# Consistent Catalogues

The records of a catalogue may agree with one another: each datum has a frame, an invertible matrix
from its coordinates to common ones, and each record leads from the frame of its datum to that of
its target. Then all the paths between two datums have the same matrix, and which of them a search
takes does not matter.

A product is applied from the right to the left, so that the passage `(frame b)⁻¹ * frame a` leaves
the coordinates of `a` first.
-/

namespace CoordTransform.Catalog

open DenseMatrix

variable {α : Type} [Angular α] [Scalar.Exact α]

/-! ## Frames -/

/-- The way from one datum to another through the common coordinates. -/
noncomputable def passage (frame : Nat → Matrix (Fin 4) (Fin 4) α) (a b : Nat) :
    Matrix (Fin 4) (Fin 4) α :=
  (frame b)⁻¹ * frame a

/-- Every record between known datums has the matrix of the passage between them. -/
structure Consistent (c : Catalog α) (frame : Nat → Matrix (Fin 4) (Fin 4) α) : Prop where
  invertible (d : Nat) : IsUnit (frame d)
  record {a : Nat} {d : Datum α} {p : BursaWolf α} : c.get? a = some d → p ∈ d.shifts →
    (c.get? p.target).isSome → square 4 p.toMatrix = passage frame a p.target

variable {c : Catalog α} {frame : Nat → Matrix (Fin 4) (Fin 4) α} {a b : Nat}

/-- The first record to a known target leads there, too. -/
theorem Consistent.shiftTo? (h : c.Consistent frame) {d t : Datum α} {p : BursaWolf α}
    (hd : c.get? a = some d) (ht : c.get? b = some t) (hp : d.shiftTo? b = some p) :
    square 4 p.toMatrix = passage frame a b := by
  have htarget : p.target = b := by simpa using List.find?_some hp
  have hrecord := h.record hd (List.mem_of_find?_eq_some hp) (by rw [htarget, ht]; rfl)
  rwa [htarget] at hrecord

/-- Going from `a` to `b` and on to `d` is going from `a` to `d`. -/
theorem Consistent.compose (h : c.Consistent frame) (a b d : Nat) :
    passage frame b d * passage frame a b = passage frame a d := by
  rw [passage, passage, passage, Matrix.mul_assoc, ← Matrix.mul_assoc (frame b),
    Matrix.mul_nonsing_inv _ ((Matrix.isUnit_iff_isUnit_det _).1 (h.invertible b)),
    Matrix.one_mul]

/-- From a datum to itself leads the identity. -/
theorem Consistent.self (h : c.Consistent frame) (a : Nat) : passage frame a a = 1 :=
  Matrix.nonsing_inv_mul _ ((Matrix.isUnit_iff_isUnit_det _).1 (h.invertible a))

variable [Scalar.Definite α]

/-! ## Searches -/

/-- A record between two datums leads from frame to frame, also when it is taken backward. -/
theorem Consistent.recorded (h : c.Consistent frame) {r : Except (TransformError α) (DenseMatrix α)}
    (hr : c.Recorded a b r) : ∃ m, r = .ok m ∧ square 4 m = passage frame a b := by
  cases hr with
  | @forward s t p hs ht hp => exact ⟨_, rfl, h.shiftTo? hs ht hp⟩
  | @backward s t p hs ht _ hp =>
    have hmatrix := h.shiftTo? ht hs hp
    -- The way back undoes the way there, so the matrix is not singular.
    have hback : passage frame a b * square 4 p.toMatrix = 1 := by
      rw [hmatrix, h.compose b a b, h.self]
    obtain ⟨n, hn⟩ := (exists_inverse_iff (m := p.toMatrix) rfl rfl).2
      (.of_mul_eq_one _ (mul_eq_one_comm.1 hback))
    refine ⟨n, (BursaWolf.inverse_toMatrix p).symm.trans hn, ?_⟩
    rw [square_inverse (n := 4) rfl hn]
    exact Matrix.inv_eq_left_inv hback

/-- A search finds nothing or the matrix that leads from frame to frame. -/
theorem Consistent.answers (h : c.Consistent frame) {excluded : List Nat}
    {r : Except (TransformError α) (Option (DenseMatrix α))} (hr : c.Answers a b excluded r) :
    r = .ok none ∨
      ∃ m, r = .ok (some m) ∧ (m.rows = 4 ∧ m.cols = 4) ∧ square 4 m = passage frame a b := by
  -- Three of the cases find nothing, and a junction is passed along two records.
  cases hr with
  | unknown _ => exact .inl rfl
  | blocked _ _ => exact .inl rfl
  | apart _ _ _ _ => exact .inl rfl
  | recorded hrecorded =>
    obtain ⟨m, rfl, hm⟩ := h.recorded hrecorded
    exact .inr ⟨m, rfl, hrecorded.shape, hm⟩
  | @joined s t w p r hundecided _ _ hjunction hp hsecond =>
    obtain ⟨n, rfl, hn⟩ := h.recorded hsecond
    obtain ⟨d, hd⟩ := Option.isSome_iff_exists.1 (mem_of_junction? hjunction).2
    refine .inr ⟨_, rfl, ⟨hsecond.shape.1, rfl⟩, ?_⟩
    rw [square_product hsecond.shape.1 hsecond.shape.2 rfl, hn, h.shiftTo? hundecided.1 hd hp,
      h.compose]

/-! ## There and back -/

omit [Angular α] [Scalar.Exact α] [Scalar.Definite α] in
theorem Undecided.symm {s t : Datum α} (h : c.Undecided a b s t) : c.Undecided b a t s :=
  ⟨h.2.1, h.1, h.2.2.2, h.2.2.1⟩

omit [Angular α] [Scalar.Exact α] [Scalar.Definite α] in
/-- Whether two datums have a junction does not depend on their order; which one it is may. -/
theorem junction?_eq_none_symm {s t : Datum α} (h : c.junction? s t = none) :
    c.junction? t s = none := by
  rw [← find?_intermediates, List.find?_eq_none] at h ⊢
  intro w hw
  obtain ⟨p, hp, q, hq, hpw, hqw⟩ := mem_intermediates.1 hw
  exact h w (mem_intermediates.2 ⟨q, hq, p, hp, hqw, hpw⟩)

omit [Scalar.Exact α] [Scalar.Definite α] in
/-- Where no search leads there, none leads back. -/
theorem resolve_eq_none_symm (h : c.resolve a b = .ok none) : c.resolve b a = .ok none := by
  rw [resolve_eq_none_iff] at h ⊢
  rcases h with hunknown | ⟨s, t, hundecided, hjunction⟩
  · exact .inl hunknown.symm
  · exact .inr ⟨t, s, hundecided.symm, junction?_eq_none_symm hjunction⟩

/-- A search in a consistent catalogue does not fail. -/
theorem Consistent.resolveExcluding (h : c.Consistent frame) (a b : Nat) (excluded : List Nat) :
    ∃ r, c.resolveExcluding a b excluded = .ok r ∧ ∀ m, r = some m →
      (m.rows = 4 ∧ m.cols = 4) ∧ square 4 m = passage frame a b := by
  rcases h.answers (answers_iff.2 rfl : c.Answers a b excluded _) with hnone | ⟨m, hm, hmatrix⟩
  · exact ⟨none, hnone, fun _ hm => nomatch hm⟩
  · exact ⟨some m, hm, fun _ hm => by cases hm; exact hmatrix⟩

theorem Consistent.resolve_symm (h : c.Consistent frame)
    (hfound : ∃ m, c.resolve a b = .ok (some m)) : ∃ n, c.resolve b a = .ok (some n) := by
  obtain ⟨m, hm⟩ := hfound
  obtain ⟨r, hr, -⟩ := h.resolveExcluding b a []
  cases r with
  | some n => exact ⟨n, hr⟩
  | none => exact nomatch (resolve_eq_none_symm hr).symm.trans hm

/-- The way there after the way back. -/
theorem Consistent.product_eq_identity (h : c.Consistent frame) {m n : DenseMatrix α}
    (hm : c.resolve a b = .ok (some m)) (hn : c.resolve b a = .ok (some n)) :
    m.product n = identity 4 := by
  obtain ⟨r, hr, hthere⟩ := h.resolveExcluding a b []
  obtain ⟨r', hr', hback⟩ := h.resolveExcluding b a []
  cases hm.symm.trans hr
  cases hn.symm.trans hr'
  obtain ⟨⟨hrows, hinner⟩, hmatrix⟩ := hthere m rfl
  obtain ⟨⟨-, hcols⟩, hmatrix'⟩ := hback n rfl
  refine eq_of_square_eq ⟨hrows, hcols⟩ ⟨rfl, rfl⟩ ?_
  rw [square_product hrows hinner hcols, hmatrix, hmatrix', h.compose, h.self, square_identity]

/-- In a consistent catalogue a search never fails, and every matrix it finds is the one from frame
to frame, whatever the path and the exclusions. Two datums are found from each other or not at all,
and what is found one way is inverse to what is found the other way. -/
theorem search_path_independent (h : c.Consistent frame) :
    (∀ source target excluded, ∃ r, c.resolveExcluding source target excluded = .ok r ∧
      ∀ m, r = some m → (m.rows = 4 ∧ m.cols = 4) ∧
        square 4 m = passage frame source target) ∧
    ∀ source target,
      ((∃ m, c.resolve source target = .ok (some m)) ↔
        ∃ n, c.resolve target source = .ok (some n)) ∧
      ∀ m n, c.resolve source target = .ok (some m) → c.resolve target source = .ok (some n) →
        m.product n = identity 4 ∧ n.product m = identity 4 :=
  ⟨h.resolveExcluding, fun _ _ => ⟨⟨h.resolve_symm, h.resolve_symm⟩,
    fun _ _ hm hn => ⟨h.product_eq_identity hm hn, h.product_eq_identity hn hm⟩⟩⟩

/-! ## A consistent catalogue -/

/-- A matrix that is inverted is invertible. -/
theorem isUnit_square {m : DenseMatrix α} (h : (m.rows = 4 ∧ m.cols = 4) ∧ m.inverse.toBool) :
    IsUnit (square 4 m) := by
  obtain ⟨⟨hrows, hcols⟩, hinverse⟩ := h
  cases hm : m.inverse with
  | error e =>
    rw [hm] at hinverse
    cases hinverse
  | ok x => exact (exists_inverse_iff hrows hcols).1 ⟨x, hm⟩

omit [Scalar.Definite α] in
/-- A datum whose coordinates are the common ones is reached by the frame alone. -/
theorem passage_identity (h : frame b = square 4 (identity 4)) :
    passage frame a b = frame a := by
  rw [passage, h, square_identity, inv_one, Matrix.one_mul]

/-- Two datums with records to a third one that scale and rotate, and so do not commute, and with
records to datums that are not there. -/
def surveyed : Catalog ℚ :=
  ⟨[{ name := "A", shifts := [.displacement 9 1 0 0, ⟨2, 1, 2, 3, 206265, 0, 0, 1000000⟩] },
    { name := "B", shifts := [⟨2, 0, 5, 0, 0, 0, 206265, 2000000⟩, .displacement 9 0 1 0] },
    { name := "C" }]⟩

/-- The common coordinates are those of the third datum. -/
def surveyedFrame : Nat → Matrix (Fin 4) (Fin 4) ℚ
  | 0 => square 4 (BursaWolf.mk 2 1 2 3 206265 0 0 1000000).toMatrix
  | 1 => square 4 (BursaWolf.mk 2 0 5 0 0 0 206265 2000000).toMatrix
  | _ => square 4 (identity 4)

theorem consistent_surveyed : surveyed.Consistent surveyedFrame where
  invertible
    | 0 => isUnit_square (by decide +kernel)
    | 1 => isUnit_square (by decide +kernel)
    | _ + 2 => isUnit_square (by decide +kernel)
  record {a d p} hd hp hknown := by
    match a with
    | 0 =>
      cases hd
      rcases List.mem_pair.1 hp with rfl | rfl
      · cases hknown
      · exact (passage_identity rfl : passage surveyedFrame 0 2 = surveyedFrame 0).symm
    | 1 =>
      cases hd
      rcases List.mem_pair.1 hp with rfl | rfl
      · exact (passage_identity rfl : passage surveyedFrame 1 2 = surveyedFrame 1).symm
      · cases hknown
    | 2 =>
      cases hd
      cases hp
    | _ + 3 => cases hd

theorem search_path_independent_surveyed : surveyed.Consistent surveyedFrame ∧
    ∃ m n, surveyed.resolve 0 1 = .ok (some m) ∧ surveyed.resolve 1 0 = .ok (some n) ∧
      square 4 m = passage surveyedFrame 0 1 ∧ m.product n = identity 4 := by
  -- Neither datum is unknown, and they have a junction.
  have hfound : surveyed.resolve 0 1 ≠ .ok none := by
    rw [Ne, resolve_eq_none_iff]
    rintro ((hunknown | hunknown) | ⟨s, t, hundecided, hjunction⟩)
    · cases hunknown
    · cases hunknown
    · cases hundecided.1
      cases hundecided.2.1
      exact absurd hjunction (by decide)
  obtain ⟨hsearch, hback⟩ := search_path_independent consistent_surveyed
  obtain ⟨r, hr, hmatrix⟩ := hsearch 0 1 []
  cases r with
  | none => exact absurd hr hfound
  | some m =>
    obtain ⟨n, hn⟩ := (hback 0 1).1.1 ⟨m, hr⟩
    exact ⟨consistent_surveyed, m, n, hr, hn, (hmatrix m rfl).2, ((hback 0 1).2 m n hr hn).1⟩

end CoordTransform.Catalog
