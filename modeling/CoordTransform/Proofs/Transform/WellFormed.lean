import Mathlib
import CoordTransform.Transform.Inverse
import CoordTransform.Proofs.Computation
import CoordTransform.Proofs.Matrix.Inverse

/-!
# Well-Formed Transforms

A transform is `Built` when it comes from the constructors of the library, in any nesting. Every
built transform is `WellFormed`: its parts fit together, and the inverse that an affine map knows
is an inverse. Well-formedness is a property of the structure alone, so that it can be taken apart
again; the operations in the leaves satisfy a property of one's choice for each direction. A
transform is `Sound` when moreover it applies no operation backward that has no backward map.
-/

namespace CoordTransform

variable {α : Type}

/-! ## Operations -/

/-- An operation writes as many components as it declares, in both directions. -/
structure Operation.Fits (o : Operation α) : Prop where
  forward : ∀ {p q : List α}, p.length = o.sourceDim → o.forward p = .ok q →
    q.length = o.targetDim
  backward : ∀ {p q : List α}, p.length = o.targetDim → o.backward p = .ok q →
    q.length = o.sourceDim

/-- The backward map, if there is one, takes every image of the forward map back. -/
def Operation.BackwardUndoes (o : Operation α) : Prop :=
  o.isInvertible = true → ∀ p q : List α, p.length = o.sourceDim → o.forward p = .ok q →
    o.backward q = .ok p

/-- The forward map takes every image of the backward map back. -/
def Operation.ForwardUndoes (o : Operation α) : Prop :=
  ∀ p q : List α, p.length = o.targetDim → o.backward p = .ok q → o.forward q = .ok p

section

variable [Scalar α]

/-! ## Affine maps that know their inverse -/

/-- The affine maps of the library: from coefficients, or as an inverse. -/
inductive Affine.Built : Affine α → Prop where
  | ofCoefficients (c : AffineCoefficients α) : Built (.ofCoefficients c)
  | inverse {a b : Affine α} : Built a → a.inverse = .ok b → Built b

theorem Affine.inverse_of_some {a : Affine α} {c : AffineCoefficients α}
    (h : (a.knownInverse <|> a.toAffineCoefficients.inverse?) = some c) :
    a.inverse = .ok { c with knownInverse := some a.toAffineCoefficients } := by
  unfold Affine.inverse Affine.inverseCoefficients
  rw [h]
  rfl

theorem Affine.inverse_of_none {a : Affine α}
    (h : (a.knownInverse <|> a.toAffineCoefficients.inverse?) = none) :
    a.inverse = .error .singularMatrix := by
  unfold Affine.inverse Affine.inverseCoefficients
  rw [h]
  rfl

theorem Affine.isInvertible_eq (a : Affine α) : a.isInvertible =
    (a.knownInverse <|> a.toAffineCoefficients.inverse?).isSome := by
  unfold Affine.isInvertible Affine.inverseCoefficients
  cases (a.knownInverse <|> a.toAffineCoefficients.inverse?) with
  | some c => rfl
  | none => rfl

/-- What it takes to invert an affine map. -/
theorem Affine.inverse_eq_ok {a b : Affine α} (h : a.inverse = .ok b) :
    ∃ c, (a.knownInverse <|> a.toAffineCoefficients.inverse?) = some c ∧
      b = { c with knownInverse := some a.toAffineCoefficients } := by
  cases hc : (a.knownInverse <|> a.toAffineCoefficients.inverse?) with
  -- The inverse is the one that is known, or else the one that is computed.
  | some c =>
    rw [Affine.inverse_of_some hc] at h
    cases h
    exact ⟨c, rfl, rfl⟩
  | none =>
    rw [Affine.inverse_of_none hc] at h
    cases h

end

section

variable [Scalar α] [Scalar.Exact α]

/-- Cramer's rule gives the coefficients of the inverse map. -/
theorem AffineCoefficients.apply_inverse? {c d : AffineCoefficients α} (h : c.inverse? = some d) :
    (∀ p, d.apply (c.apply p) = p) ∧ ∀ p, c.apply (d.apply p) = p := by
  obtain ⟨a, b, e, f, g, k⟩ := c
  simp only [AffineCoefficients.inverse?] at h
  split at h
  · cases h
  · next hd =>
    rw [Scalar.isUsable_iff] at hd
    cases h
    simp only [AffineCoefficients.determinant] at hd ⊢
    -- Cleared of the determinant, both identities are multiples of its definition.
    generalize hdet : a * g - b * f = d at hd
    constructor
    · rintro ⟨x, y⟩
      simp only [AffineCoefficients.apply, Point.mk.injEq]
      constructor
      · field_simp
        linear_combination x * hdet
      · field_simp
        linear_combination y * hdet
    · rintro ⟨x, y⟩
      simp only [AffineCoefficients.apply, Point.mk.injEq]
      constructor
      · field_simp
        linear_combination (x - e) * hdet
      · field_simp
        linear_combination (y - k) * hdet

/-- The inverse that a map knows is one. -/
theorem Affine.Built.knownInverse {a : Affine α} (ha : a.Built) :
    ∀ c, a.knownInverse = some c →
      (∀ p, c.apply (a.apply p) = p) ∧ ∀ p, a.apply (c.apply p) = p := by
  induction ha with
  | ofCoefficients c => rintro d ⟨⟩
  | @inverse a b _ hb ih =>
    obtain ⟨d, hd, rfl⟩ := Affine.inverse_eq_ok hb
    rintro _ ⟨⟩
    -- The inverse knows `a`. It is what `a` already knew, or what Cramer's rule gives.
    cases hknown : a.knownInverse with
    | some e =>
      rw [hknown] at hd
      cases hd
      exact ⟨(ih _ hknown).2, (ih _ hknown).1⟩
    | none =>
      rw [hknown] at hd
      have hboth := AffineCoefficients.apply_inverse? hd
      exact ⟨hboth.2, hboth.1⟩

/-- The inverse of an affine map takes images back. -/
theorem Affine.Built.apply_inverse {a b : Affine α} (ha : a.Built) (h : a.inverse = .ok b)
    (p : Point α) : b.apply (a.apply p) = p :=
  ((Affine.Built.inverse ha h).knownInverse _ (by
    obtain ⟨c, -, rfl⟩ := Affine.inverse_eq_ok h
    rfl)).2 p

end

namespace Transform

/-! ## Well-formed transforms -/

section

variable [Scalar α]

/-- The parts of a transform fit together: matrices have room for a last row and column, and the
images of every first step are points of its second step. Operations that are applied forward
satisfy `direct`, those that are applied backward satisfy `reverse`. -/
def WellFormed (direct reverse : Operation α → Prop) : Transform α → Prop
  | affine a => a.Built
  | linear m => 2 ≤ m.rows ∧ 2 ≤ m.cols
  | concatenated first second =>
    first.WellFormed direct reverse ∧ second.WellFormed direct reverse ∧
      first.targetDim = second.sourceDim
  | passThrough _ inner _ => inner.WellFormed direct reverse
  | operation op => direct op
  | inverseOperation op => reverse op

variable {direct direct' reverse reverse' : Operation α → Prop}

theorem WellFormed.mono (hdirect : ∀ op, direct op → direct' op)
    (hreverse : ∀ op, reverse op → reverse' op) {t : Transform α}
    (h : t.WellFormed direct reverse) : t.WellFormed direct' reverse' := by
  induction t with
  | affine a => exact h
  | linear m => exact h
  | concatenated first second ihf ihs => exact ⟨ihf h.1, ihs h.2.1, h.2.2⟩
  | passThrough leading inner trailing ih => exact ih h
  | operation op => exact hdirect op h
  | inverseOperation op => exact hreverse op h

theorem WellFormed.and {t : Transform α} (h : t.WellFormed direct reverse)
    (h' : t.WellFormed direct' reverse') :
    t.WellFormed (fun op => direct op ∧ direct' op) (fun op => reverse op ∧ reverse' op) := by
  induction t with
  | affine a => exact h
  | linear m => exact h
  | concatenated first second ihf ihs => exact ⟨ihf h.1 h'.1, ihs h.2.1 h'.2.1, h.2.2⟩
  | passThrough leading inner trailing ih => exact ih h h'
  | operation op => exact ⟨h, h'⟩
  | inverseOperation op => exact ⟨h, h'⟩

/-- Well-formed over operations in `ops`; a backward map is applied only where there is one. -/
abbrev Sound (ops : Operation α → Prop) (t : Transform α) : Prop :=
  t.WellFormed ops fun op => ops op ∧ op.isInvertible = true

omit [Scalar α] in
theorem eq_linear_of_linear? {m : DenseMatrix α} {t : Transform α} (h : linear? m = .ok t) :
    t = linear m ∧ 2 ≤ m.rows ∧ 2 ≤ m.cols := by
  unfold linear? at h
  split at h
  · cases h
  · next hm =>
    simp only [Bool.or_eq_true, decide_eq_true_eq, not_or, Nat.not_lt] at hm
    cases h
    exact ⟨rfl, hm⟩

/-- The transform of a matrix is the affine map of the plane that it is, or the matrix itself. -/
theorem ofMatrix_eq_ok {m : DenseMatrix α} {t : Transform α} (h : ofMatrix m = .ok t) :
    (∃ a, Affine.ofMatrix m = .ok a ∧ t = affine a) ∨
      t = linear m ∧ 2 ≤ m.rows ∧ 2 ≤ m.cols := by
  unfold ofMatrix at h
  split at h
  · obtain ⟨a, ha, ht⟩ := bind_eq_ok.1 h
    cases ht
    exact .inl ⟨a, ha, rfl⟩
  · exact .inr (eq_linear_of_linear? h)

theorem built_of_affineOfMatrix {m : DenseMatrix α} {a : Affine α}
    (h : Affine.ofMatrix m = .ok a) : a.Built := by
  unfold Affine.ofMatrix at h
  split at h
  · cases h
    exact .ofCoefficients _
  · cases h

theorem WellFormed.ofMatrix {m : DenseMatrix α} {t : Transform α} (h : ofMatrix m = .ok t) :
    t.WellFormed direct reverse := by
  obtain ⟨a, ha, rfl⟩ | ⟨rfl, hm⟩ := ofMatrix_eq_ok h
  · exact built_of_affineOfMatrix ha
  · exact hm

theorem WellFormed.identity {n : Nat} {t : Transform α} (h : identity n = .ok t) :
    t.WellFormed direct reverse := by
  unfold Transform.identity at h
  split at h
  · cases h
    exact Affine.Built.ofCoefficients _
  · exact .ofMatrix h

omit [Scalar α] in
theorem concatenate_eq_ok {first second t : Transform α} :
    concatenate first second = .ok t ↔
      first.targetDim = second.sourceDim ∧ t = concatenated first second := by
  unfold concatenate requireConnected
  split
  · next hdims =>
    have hdims' : first.targetDim = second.sourceDim := eq_of_beq hdims
    exact ⟨fun h => by cases h; exact ⟨hdims', rfl⟩, fun h => by rw [h.2]; rfl⟩
  · next hdims =>
    exact ⟨fun h => (by cases h), fun h => absurd (beq_iff_eq.2 h.1) hdims⟩

/-! ## Inverses -/

/-- How the inverse of a transform is made, form by form. -/
inductive InverseOf : Transform α → Transform α → Prop where
  | identity {t : Transform α} : t.isIdentity = true → InverseOf t t
  | affine {a b : Affine α} : a.inverse = .ok b → InverseOf (.affine a) (.affine b)
  | linear {m n : DenseMatrix α} : m.inverse = .ok n → 2 ≤ n.rows ∧ 2 ≤ n.cols →
      InverseOf (.linear m) (.linear n)
  | concatenated {first second first' second' : Transform α} : InverseOf first first' →
      InverseOf second second' → second'.targetDim = first'.sourceDim →
      InverseOf (.concatenated first second) (.concatenated second' first')
  | passThrough {leading trailing : Nat} {inner inner' : Transform α} : InverseOf inner inner' →
      InverseOf (.passThrough leading inner trailing) (.passThrough leading inner' trailing)
  | operation {op : Operation α} : op.isInvertible = true →
      InverseOf (.operation op) (.inverseOperation op)
  | inverseOperation {op : Operation α} : InverseOf (.inverseOperation op) (.operation op)

theorem inverseOf_of_inverse {t u : Transform α} (h : t.inverse = .ok u) : InverseOf t u := by
  -- Whatever the form, the first test is for an identity, which is its own inverse.
  induction t generalizing u with
  | affine a =>
    unfold inverse at h
    split at h
    · next hid => cases h; exact .identity hid
    · obtain ⟨b, hb, hu⟩ := bind_eq_ok.1 (mapError_eq_ok.1 h)
      cases hu
      exact .affine hb
  | linear m =>
    unfold inverse at h
    split at h
    · next hid => cases h; exact .identity hid
    · obtain ⟨n, hn, hu⟩ := bind_eq_ok.1 (mapError_eq_ok.1 h)
      obtain ⟨rfl, hshape⟩ := eq_linear_of_linear? hu
      exact .linear hn hshape
  | concatenated first second ihf ihs =>
    unfold inverse at h
    split at h
    · next hid => cases h; exact .identity hid
    · obtain ⟨s, hs, hrest⟩ := bind_eq_ok.1 (mapError_eq_ok.1 h)
      obtain ⟨f, hf, hu⟩ := bind_eq_ok.1 hrest
      obtain ⟨hdims, rfl⟩ := concatenate_eq_ok.1 hu
      exact .concatenated (ihf hf) (ihs hs) hdims
  | passThrough leading inner trailing ih =>
    unfold inverse at h
    split at h
    · next hid => cases h; exact .identity hid
    · obtain ⟨i, hi, hu⟩ := bind_eq_ok.1 (mapError_eq_ok.1 h)
      cases hu
      exact .passThrough (ih hi)
  | operation op =>
    unfold inverse at h
    split at h
    · next hid => cases h; exact .identity hid
    · have hop : (if op.isInvertible then .ok (inverseOperation op)
          else .error (TransformError.noInverse op.method)) = Except.ok u := mapError_eq_ok.1 h
      split at hop
      · next hinvertible => cases hop; exact .operation hinvertible
      · cases hop
  | inverseOperation op =>
    unfold inverse at h
    split at h
    · next hid => cases h; exact .identity hid
    · cases mapError_eq_ok.1 h
      exact .inverseOperation

/-- The inverse of a sound transform is sound. -/
theorem InverseOf.sound {ops : Operation α → Prop} {t u : Transform α} (hu : InverseOf t u)
    (h : t.Sound ops) : u.Sound ops := by
  induction hu with
  | identity hid => exact h
  | affine hb => exact .inverse h hb
  | linear hn hshape => exact hshape
  | concatenated _ _ hdims ihf ihs => exact ⟨ihs h.2.1, ihf h.1, hdims⟩
  | passThrough _ ih => exact ih h
  | operation hinvertible => exact ⟨h, hinvertible⟩
  | inverseOperation => exact h.1

/-! ## Built transforms -/

/-- The transforms that the constructors of the library make from operations in `ops`. -/
inductive Built (ops : Operation α → Prop) : Transform α → Prop where
  | affine {a : Affine α} : a.Built → Built ops (.affine a)
  | ofMatrix {m : DenseMatrix α} {t : Transform α} : Transform.ofMatrix m = .ok t → Built ops t
  | identity {n : Nat} {t : Transform α} : Transform.identity n = .ok t → Built ops t
  | concatenate {first second t : Transform α} : Built ops first → Built ops second →
      Transform.concatenate first second = .ok t → Built ops t
  | passThrough (leading : Nat) {inner : Transform α} (trailing : Nat) : Built ops inner →
      Built ops (.passThrough leading inner trailing)
  | operation {op : Operation α} : ops op → Built ops (.operation op)
  | inverse {t u : Transform α} : Built ops t → t.inverse = .ok u → Built ops u

variable {ops : Operation α → Prop}

theorem Built.sound {t : Transform α} (h : t.Built ops) : t.Sound ops := by
  induction h with
  | affine ha => exact ha
  | ofMatrix ht => exact .ofMatrix ht
  | identity ht => exact .identity ht
  -- The parts of a concatenation meet, since otherwise there would have been none.
  | concatenate _ _ ht ihf ihs =>
    obtain ⟨hdims, rfl⟩ := concatenate_eq_ok.1 ht
    exact ⟨ihf, ihs, hdims⟩
  | passThrough _ _ _ ih => exact ih
  | operation hop => exact hop
  -- An inverse is described by its relation to the transform, which keeps soundness.
  | inverse _ hu ih => exact (inverseOf_of_inverse hu).sound ih

end

end Transform

end CoordTransform
