import CoordTransform.Proofs.Builder.Dimensions
import CoordTransform.Proofs.Element.Productions
import CoordTransform.Proofs.Transform.DoubleInverse

/-!
# Transforms without an Inverse

A transform is inverted leaf by leaf, from the last one that is applied to the first. It has an
inverse exactly when each of its leaves has one, and when some leaves have none, its error is that
of the last of them. Every concatenation and every pass-through around a leaf wraps the error of
the leaf, and so does the interpreter of an inverse element. But an error is wrapped only once, so
that it is the same at every depth: the reason of the leaf with a single wrapper around it.

The leaves of an inverse that hold no matrix have inverses again: an affine map remembers the map it
came from, even where its own determinant vanishes.
-/

namespace CoordTransform

variable {α : Type} [Scalar α]

theorem Affine.inverse_eq_error {a : Affine α} {e : TransformError α} :
    a.inverse = .error e ↔ a.isInvertible = false ∧ .singularMatrix = e := by
  unfold inverse isInvertible inverseCoefficients
  split <;> simp [bind, Except.bind, pure, Except.pure, Except.toBool]

namespace Transform

/-! ## Leaves -/

omit [Scalar α] in
/-- The leaves in the order in which they are applied. -/
def leaves : Transform α → List (Transform α)
  | affine a => [affine a]
  | linear m => [linear m]
  | concatenated first second => first.leaves ++ second.leaves
  | passThrough _ inner _ => inner.leaves
  | operation op => [operation op]
  | inverseOperation op => [inverseOperation op]

/-- The last transform of the list that has no inverse fails with the error `e`. -/
def LastFailure (ts : List (Transform α)) (e : TransformError α) : Prop :=
  ∃ before t after, ts = before ++ t :: after ∧ t.inverse = .error e ∧
    ∀ u ∈ after, u.isInvertible = true

variable {ops : Operation α → Prop} {t u first second inner : Transform α}
  {ts us : List (Transform α)} {e : TransformError α} {leading trailing : Nat}

theorem isInvertible_iff : t.isInvertible = true ↔ ∃ u, t.inverse = .ok u := by
  unfold isInvertible
  cases t.inverse <;> simp [Except.toBool]

theorem lastFailure_singleton : LastFailure [t] e ↔ t.inverse = .error e := by
  constructor
  · rintro ⟨before, u, after, hlist, hu, -⟩
    obtain ⟨-, heq⟩ | ⟨-, heq⟩ := List.singleton_eq_append_iff.1 hlist
    · cases heq
      exact hu
    · cases heq
  · exact fun h => ⟨[], t, [], rfl, h, List.forall_mem_nil _⟩

/-- The second list is asked first. -/
theorem lastFailure_append : LastFailure (ts ++ us) e ↔
    LastFailure us e ∨ (∀ u ∈ us, u.isInvertible = true) ∧ LastFailure ts e := by
  constructor
  · rintro ⟨before, t, after, hlist, ht, hafter⟩
    -- The list is cut in two: the failure stands behind the cut or before it.
    obtain ⟨rest, -, rfl⟩ | ⟨rest, rfl, hrest⟩ := List.append_eq_append_iff.1 hlist
    · exact .inl ⟨rest, t, after, rfl, ht, hafter⟩
    · cases rest with
      | nil => exact .inl ⟨[], t, after, hrest.symm, ht, hafter⟩
      | cons t' rest =>
        cases hrest
        obtain ⟨hrest', hus⟩ := List.forall_mem_append.1 hafter
        exact .inr ⟨hus, before, t, rest, rfl, ht, hrest'⟩
  · rintro (⟨before, t, after, rfl, ht, hafter⟩ | ⟨hus, before, t, after, rfl, ht, hafter⟩)
    · exact ⟨ts ++ before, t, after, by rw [List.append_assoc], ht, hafter⟩
    · exact ⟨before, t, after ++ us, by rw [List.append_assoc, List.cons_append], ht,
        List.forall_mem_append.2 ⟨hafter, hus⟩⟩

theorem not_lastFailure (hts : ∀ t ∈ ts, t.isInvertible = true) : ¬LastFailure ts e := by
  rintro ⟨before, t, after, rfl, ht, -⟩
  obtain ⟨u, hu⟩ := isInvertible_iff.1 (hts t (by simp))
  cases ht.symm.trans hu

theorem isInvertible_of_isIdentity (hid : t.isIdentity = true) : t.isInvertible = true :=
  isInvertible_iff.2 ⟨t, inverse_of_isIdentity hid⟩

theorem inverse_ne_error_of_isIdentity (hid : t.isIdentity = true) : t.inverse ≠ .error e := by
  rw [inverse_of_isIdentity hid]
  exact nofun

/-- The leaves of an identity are identities. -/
theorem isInvertible_leaves_of_isIdentity (hid : t.isIdentity = true) :
    ∀ l ∈ t.leaves, l.isInvertible = true := by
  induction t with
  | concatenated first second ihf ihs =>
    rw [isIdentity, Bool.and_eq_true] at hid
    exact List.forall_mem_append.2 ⟨ihf hid.1, ihs hid.2⟩
  | passThrough leading inner trailing ih => exact ih hid
  | operation op => cases hid
  | inverseOperation op => cases hid
  | _ => exact List.forall_mem_singleton.2 (isInvertible_of_isIdentity hid)

/-! ## Leaves without an inverse -/

/-- Why a leaf has no inverse. -/
inductive Obstacle : Transform α → TransformError α → Prop where
  | affine {a : Affine α} : a.isIdentity 0 = false → a.isInvertible = false →
      Obstacle (.affine a) .singularMatrix
  | notSquare {m : DenseMatrix α} : m.rows ≠ m.cols → Obstacle (.linear m) (m.shapeError .square)
  | singular {m : DenseMatrix α} : m.isIdentity 0 = false → m.inverse = .error .singularMatrix →
      Obstacle (.linear m) .singularMatrix
  | operation {op : Operation α} : op.isInvertible = false →
      Obstacle (.operation op) (.noInverse op.method)

variable {reason : TransformError α}

theorem Obstacle.ne_nonInvertible (h : t.Obstacle reason) (source : TransformError α) :
    reason ≠ .nonInvertible source := by
  cases h <;> exact nofun

theorem Obstacle.inverse_eq (h : t.Obstacle reason) :
    t.inverse = .error (.nonInvertible reason) := by
  unfold inverse
  -- None of these leaves is an identity, so that the inversion comes to its last branch.
  cases h with
  | affine hid h =>
    rw [isIdentity, hid, if_neg (by decide)]
    dsimp only
    rw [Affine.inverse_eq_error.2 ⟨h, rfl⟩]
    rfl
  | @notSquare m hm =>
    have hsquare : m.isSquare = false := beq_eq_false_iff_ne.2 hm
    rw [isIdentity, hsquare, Bool.false_and, if_neg (by decide)]
    dsimp only
    rw [DenseMatrix.inverse_of_not_square hm]
    rfl
  | singular hid h =>
    rw [isIdentity, hid, Bool.and_false, if_neg (by decide)]
    dsimp only
    rw [h]
    rfl
  | operation h =>
    rw [isIdentity, if_neg (by decide)]
    dsimp only
    rw [h, if_neg (by decide)]
    rfl

theorem exists_obstacle_affine {a : Affine α} (h : (affine a).inverse = .error e) :
    ∃ reason, (affine a).Obstacle reason ∧ .nonInvertible reason = e := by
  unfold inverse at h
  split at h
  · cases h
  · next hid =>
    rw [isIdentity, Bool.not_eq_true] at hid
    obtain ⟨e', h', rfl⟩ := mapError_eq_error.1 h
    obtain ha | ⟨b, -, hb⟩ := bind_eq_error.1 h'
    · obtain ⟨hinvertible, rfl⟩ := Affine.inverse_eq_error.1 ha
      exact ⟨_, .affine hid hinvertible, rfl⟩
    · cases hb

/-- The inverse of a matrix is as large as the matrix, so it is a transform. -/
theorem exists_obstacle_linear {m : DenseMatrix α} (hm : 2 ≤ m.rows ∧ 2 ≤ m.cols)
    (h : (linear m).inverse = .error e) :
    ∃ reason, (linear m).Obstacle reason ∧ .nonInvertible reason = e := by
  -- A square matrix is inverted or singular; one that is not square has an obstacle of its own.
  by_cases hsquare : m.rows = m.cols
  · unfold inverse at h
    split at h
    · cases h
    · next hid =>
      have hid' : m.isIdentity 0 = false := by
        rw [isIdentity, DenseMatrix.isSquare, beq_iff_eq.2 hsquare, Bool.true_and,
          Bool.not_eq_true] at hid
        exact hid
      obtain ⟨e', h', rfl⟩ := mapError_eq_error.1 h
      obtain hinverse | ⟨n, hn, hshape⟩ := bind_eq_error.1 h'
      · obtain ⟨n, hn⟩ | hn := DenseMatrix.inverse_of_square hsquare
        · cases hn.symm.trans hinverse
        · cases hn.symm.trans hinverse
          exact ⟨_, .singular hid' hn, rfl⟩
      · -- The inverse is as large as the matrix, and large enough for a transform.
        obtain ⟨-, hrows, hcols⟩ := DenseMatrix.shape_inverse hn
        have hlarge : ¬(decide (n.rows < 2) || decide (n.cols < 2)) = true := by
          simp only [Bool.or_eq_true, decide_eq_true_eq]
          omega
        cases (if_neg hlarge).symm.trans hshape
  · have hobstacle : (linear m).Obstacle _ := .notSquare hsquare
    cases hobstacle.inverse_eq.symm.trans h
    exact ⟨_, hobstacle, rfl⟩

theorem exists_obstacle_operation {op : Operation α} (h : (operation op).inverse = .error e) :
    ∃ reason, (operation op).Obstacle reason ∧ .nonInvertible reason = e := by
  cases hop : op.isInvertible with
  | true => cases (inverse_operation_eq_ok.2 ⟨hop, rfl⟩).symm.trans h
  | false =>
    have hobstacle : (operation op).Obstacle _ := .operation hop
    cases hobstacle.inverse_eq.symm.trans h
    exact ⟨_, hobstacle, rfl⟩

/-- A leaf has an inverse unless something is in the way of it. -/
theorem exists_obstacle (ht : t.Sound ops) : ∀ l ∈ t.leaves, l.inverse = .error e →
    ∃ reason, l.Obstacle reason ∧ .nonInvertible reason = e := by
  induction t with
  | affine a => exact List.forall_mem_singleton.2 exists_obstacle_affine
  | linear m => exact List.forall_mem_singleton.2 (exists_obstacle_linear ht)
  | concatenated first second ihf ihs =>
    exact List.forall_mem_append.2 ⟨ihf ht.1, ihs ht.2.1⟩
  | passThrough leading inner trailing ih => exact ih ht
  | operation op => exact List.forall_mem_singleton.2 exists_obstacle_operation
  | inverseOperation op =>
    exact List.forall_mem_singleton.2 fun h => nomatch (inverse_inverseOperation op).symm.trans h

/-! ## Inverses of the parts -/

/-- Errors of inversion are wrapped. -/
theorem asNonInvertible_of_inverse (h : t.inverse = .error e) : e.asNonInvertible = e := by
  unfold inverse at h
  split at h
  · cases h
  · obtain ⟨e', -, rfl⟩ := mapError_eq_error.1 h
    exact e'.asNonInvertible_idem

/-- The inverses of two steps that fit together do so in the other order. -/
theorem concatenate_inverses (ht : (concatenated first second).Sound ops) {s f : Transform α}
    (hs : second.inverse = .ok s) (hf : first.inverse = .ok f) :
    concatenate s f = .ok (concatenated s f) := by
  have hdims : s.targetDim = f.sourceDim := by
    rw [((inverseOf_of_inverse hs).dims ht.2.1).2, ((inverseOf_of_inverse hf).dims ht.1).1, ht.2.2]
  exact concatenate_eq_ok.2 ⟨hdims, rfl⟩

/-- The second step is inverted before the first one, and nothing else can fail. -/
theorem inverse_concatenated_eq_error (ht : (concatenated first second).Sound ops)
    (hid : (concatenated first second).isIdentity = false) :
    (concatenated first second).inverse = .error e ↔
      second.inverse = .error e ∨ second.isInvertible = true ∧ first.inverse = .error e := by
  rw [inverse.eq_def, hid, if_neg (by decide), mapError_eq_error]
  constructor
  · rintro ⟨e', h, rfl⟩
    obtain hs | ⟨s, hs, h⟩ := bind_eq_error.1 h
    · exact .inl (by rw [hs, asNonInvertible_of_inverse hs])
    obtain hf | ⟨f, hf, h⟩ := bind_eq_error.1 h
    · exact .inr ⟨isInvertible_iff.2 ⟨s, hs⟩, by rw [hf, asNonInvertible_of_inverse hf]⟩
    -- The two inverses are there, so they are concatenated, and that does not fail.
    · cases (concatenate_inverses ht hs hf).symm.trans h
  · rintro (hs | ⟨hs, hf⟩)
    · exact ⟨e, bind_eq_error.2 (.inl hs), asNonInvertible_of_inverse hs⟩
    · obtain ⟨s, hs⟩ := isInvertible_iff.1 hs
      exact ⟨e, bind_eq_error.2 (.inr ⟨s, hs, bind_eq_error.2 (.inl hf)⟩),
        asNonInvertible_of_inverse hf⟩

theorem inverse_passThrough_eq_error
    (hid : (passThrough leading inner trailing).isIdentity = false) :
    (passThrough leading inner trailing).inverse = .error e ↔ inner.inverse = .error e := by
  rw [inverse.eq_def, hid, if_neg (by decide), mapError_eq_error]
  constructor
  · rintro ⟨e', h, rfl⟩
    obtain hi | ⟨i, -, h⟩ := bind_eq_error.1 h
    · rw [hi, asNonInvertible_of_inverse hi]
    · cases h
  · exact fun hi => ⟨e, bind_eq_error.2 (.inl hi), asNonInvertible_of_inverse hi⟩

/-! ## Inverses by the leaves -/

theorem isInvertible_concatenated (ht : (concatenated first second).Sound ops)
    (hid : (concatenated first second).isIdentity = false) :
    (concatenated first second).isInvertible = true ↔
      first.isInvertible = true ∧ second.isInvertible = true := by
  simp only [isInvertible_iff, inverse_concatenated_eq_ok hid]
  constructor
  · rintro ⟨u, s, f, hs, hf, -⟩
    exact ⟨⟨f, hf⟩, ⟨s, hs⟩⟩
  · rintro ⟨⟨f, hf⟩, ⟨s, hs⟩⟩
    exact ⟨_, s, f, hs, hf, (concatenate_eq_ok.1 (concatenate_inverses ht hs hf)).1, rfl⟩

theorem isInvertible_passThrough (hid : (passThrough leading inner trailing).isIdentity = false) :
    (passThrough leading inner trailing).isInvertible = true ↔ inner.isInvertible = true := by
  simp only [isInvertible_iff, inverse_passThrough_eq_ok hid]
  exact ⟨fun ⟨_, i, hi, _⟩ => ⟨i, hi⟩, fun ⟨i, hi⟩ => ⟨_, i, hi, rfl⟩⟩

/-- A transform has an inverse exactly when all of its leaves have one. An identity is not looked
into, but neither its leaves nor the whole can fail. -/
theorem isInvertible_iff_leaves (ht : t.Sound ops) :
    t.isInvertible = true ↔ ∀ l ∈ t.leaves, l.isInvertible = true := by
  induction t with
  -- An identity is its own inverse, and its leaves are identities.
  | concatenated first second ihf ihs =>
    cases hid : (concatenated first second).isIdentity with
    | true =>
      exact iff_of_true (isInvertible_of_isIdentity hid) (isInvertible_leaves_of_isIdentity hid)
    | false =>
      rw [isInvertible_concatenated ht hid, ihf ht.1, ihs ht.2.1, leaves, List.forall_mem_append]
  | passThrough leading inner trailing ih =>
    cases hid : (passThrough leading inner trailing).isIdentity with
    | true =>
      exact iff_of_true (isInvertible_of_isIdentity hid) (isInvertible_leaves_of_isIdentity hid)
    | false => rw [isInvertible_passThrough hid, ih ht, leaves]
  | _ => rw [leaves, List.forall_mem_singleton]

/-- The error of an inversion is that of the last leaf without an inverse. -/
theorem inverse_eq_error_iff_leaves (ht : t.Sound ops) :
    t.inverse = .error e ↔ LastFailure t.leaves e := by
  induction t with
  -- The inverse of the second part is taken first, so that the last failing leaf decides.
  | concatenated first second ihf ihs =>
    cases hid : (concatenated first second).isIdentity with
    | true =>
      exact iff_of_false (inverse_ne_error_of_isIdentity hid)
        (not_lastFailure (isInvertible_leaves_of_isIdentity hid))
    | false =>
      rw [inverse_concatenated_eq_error ht hid, ihf ht.1, ihs ht.2.1,
        isInvertible_iff_leaves ht.2.1, leaves, lastFailure_append]
  | passThrough leading inner trailing ih =>
    cases hid : (passThrough leading inner trailing).isIdentity with
    | true =>
      exact iff_of_false (inverse_ne_error_of_isIdentity hid)
        (not_lastFailure (isInvertible_leaves_of_isIdentity hid))
    | false => rw [inverse_passThrough_eq_error hid, ih ht, leaves]
  | _ => rw [leaves, lastFailure_singleton]

/-- Nothing but the leaves stands in the way of the inverse, and an error is wrapped once. -/
theorem exists_reason_iff (ht : t.Sound ops) : t.inverse = .error e ↔
    ∃ reason, e = .nonInvertible reason ∧ (∀ source, reason ≠ .nonInvertible source) ∧
      LastFailure t.leaves (.nonInvertible reason) := by
  rw [inverse_eq_error_iff_leaves ht]
  constructor
  · intro h
    obtain ⟨before, l, after, hleaves, hl, -⟩ := id h
    obtain ⟨reason, hreason, rfl⟩ := exists_obstacle ht l (by simp [hleaves]) hl
    exact ⟨reason, rfl, hreason.ne_nonInvertible, h⟩
  · rintro ⟨reason, rfl, -, h⟩
    exact h

/-- An affine map in an inverse remembers the map that it came from. -/
theorem InverseOf.isInvertible_leaves (hu : InverseOf t u) (ht : t.Sound ops)
    (hfree : t.MatrixFree) : ∀ l ∈ u.leaves, l.isInvertible = true := by
  -- The induction is on how the inverse was found. Only a matrix may be lost, and there is none.
  induction hu with
  | identity hid => exact isInvertible_leaves_of_isIdentity hid
  | @affine a b hb =>
    refine List.forall_mem_singleton.2 ?_
    cases hid : (Transform.affine b).isIdentity with
    | true => exact isInvertible_of_isIdentity hid
    | false =>
      exact isInvertible_iff.2 ⟨_, (inverse_affine_eq_ok hid).2 ⟨_, Affine.inverse_inverse hb, rfl⟩⟩
  | linear _ _ => exact hfree.elim
  | concatenated _ _ _ ihf ihs =>
    exact List.forall_mem_append.2 ⟨ihs ht.2.1 hfree.2, ihf ht.1 hfree.1⟩
  | passThrough _ ih => exact ih ht hfree
  | operation _ =>
    exact List.forall_mem_singleton.2 (isInvertible_iff.2 ⟨_, inverse_inverseOperation _⟩)
  | inverseOperation =>
    exact List.forall_mem_singleton.2
      (isInvertible_iff.2 ⟨_, inverse_operation_eq_ok.2 ⟨ht.2, rfl⟩⟩)

end Transform

namespace Interpreter

variable {i : Interpreter α} {element child : Element α} {pool pool' : Pool α} {t : Transform α}
  {e : TransformError α}

/-- The interpreter reports the error of an inversion as it is. -/
theorem transformOf_inverse_of_error (hkeyword : element.is Element.inverseKeyword = true)
    (hchildren : element.children = [child])
    (hchild : i.transformOf child pool = (.ok (some t), pool')) (h : t.inverse = .error e) :
    i.transformOf element pool = (.error (.transform e), pool') := by
  have hinverse : inverse t pool' = (.error (.transform e), pool') := by
    unfold inverse
    rw [h, Except.mapError, Transform.asNonInvertible_of_inverse h]
    rfl
  -- The other productions have other keywords.
  obtain ⟨keyword, offset, literals, children⟩ := element
  rw [transformOf.eq_def]
  dsimp only
  rw [if_neg (Element.not_is hkeyword (by decide)), if_neg (Element.not_is hkeyword (by decide)),
    if_pos hkeyword]
  cases hchildren
  exact (stateBind_of_ok hchild).trans
    ((stateBind_of_ok (requireTransform_eq_ok_iff.2 ⟨rfl, rfl⟩)).trans
      (stateBind_of_error hinverse))

end Interpreter

namespace Transform

variable {ops : Operation α → Prop} {t : Transform α}

/-- A built transform is inverted by its leaves: it has an inverse when all of them have one. The
inverse goes the other way round, and it has an inverse again when there is no matrix. Otherwise
the error is that of the last leaf without an inverse, a reason in one wrapper at every depth; the
interpreter of an inverse element reports the same error. -/
theorem Built.inverse_of_leaves (ht : t.Built ops) :
    (t.isInvertible = true ↔ ∀ l ∈ t.leaves, l.isInvertible = true) ∧
      (∀ u, t.inverse = .ok u → u.sourceDim = t.targetDim ∧ u.targetDim = t.sourceDim ∧
        (t.MatrixFree → u.isInvertible = true)) ∧
      (∀ e, t.inverse = .error e ↔ ∃ reason, e = .nonInvertible reason ∧
        (∀ source, reason ≠ .nonInvertible source) ∧
        LastFailure t.leaves (.nonInvertible reason)) ∧
      ∀ (i : Interpreter α) (element child : Element α) (pool pool' : Pool α)
        (e : TransformError α), element.is Element.inverseKeyword = true →
        element.children = [child] → i.transformOf child pool = (.ok (some t), pool') →
        t.inverse = .error e → i.transformOf element pool = (.error (.transform e), pool') := by
  refine ⟨isInvertible_iff_leaves ht.sound, fun u hu => ?_, fun _ => exists_reason_iff ht.sound,
    fun _ _ _ _ _ _ => Interpreter.transformOf_inverse_of_error⟩
  have hinverse := inverseOf_of_inverse hu
  obtain ⟨hsource, htarget⟩ := hinverse.dims ht.sound
  exact ⟨hsource, htarget, fun hfree => (isInvertible_iff_leaves (hinverse.sound ht.sound)).2
    (hinverse.isInvertible_leaves ht.sound hfree)⟩

/-! ## Two leaves without an inverse -/

/-- The projection of the plane onto its second axis. -/
def flattening : Affine ℚ := .ofCoefficients ⟨0, 0, 0, 0, 1, 0⟩

/-- The map `x ↦ (x, 0)` of the line into the plane. -/
def lineIntoPlane : DenseMatrix ℚ := Method.defaultMatrix 3 2

def blockedMap : Transform ℚ :=
  .concatenated (.affine flattening) (.passThrough 1 (.linear lineIntoPlane) 0)

theorem blockedMap_built : blockedMap.Built fun _ => True :=
  .concatenate (.affine (.ofCoefficients _))
    (.passThrough 1 0 (.ofMatrix (m := lineIntoPlane) (by with_unfolding_all rfl))) rfl

def blockedInterpreter : Interpreter ℚ := ⟨⟨.builtin, { usePool := false }⟩, 0⟩

/-- The element of a matrix with one parameter. -/
def parameterisedElement (name : String) (v : ℚ) : Element ℚ :=
  .make Element.operationKeyword [.text Method.matrixName]
    [.make Element.parameterKeyword [.text name, .number v] []]

def blockedElement : Element ℚ :=
  .make Element.concatenationKeyword []
    [parameterisedElement "elt_0_0" 0,
      .make Element.passThroughKeyword [.number 1] [parameterisedElement "num_col" 2]]

theorem transformOf_blockedElement :
    blockedInterpreter.transformOf blockedElement [] = (.ok (some blockedMap), []) := by
  -- The two children are interpreted one after the other, with nothing for a pool.
  have hflattening : blockedInterpreter.operation (parameterisedElement "elt_0_0" 0) [] =
      (.ok (.affine flattening), []) :=
    Interpreter.operation_eq_ok_iff.2 ⟨Method.matrixName, .ofList [("elt_0_0", .number 0)], rfl,
      rfl, by with_unfolding_all rfl⟩
  have hline : blockedInterpreter.operation (parameterisedElement "num_col" 2) [] =
      (.ok (.linear lineIntoPlane), []) :=
    Interpreter.operation_eq_ok_iff.2 ⟨Method.matrixName, .ofList [("num_col", .number 2)], rfl,
      rfl, by with_unfolding_all rfl⟩
  have hcounts : blockedInterpreter.counts
      (.make Element.passThroughKeyword [.number 1] [parameterisedElement "num_col" 2]) =
        .ok (1, 0) := by with_unfolding_all rfl
  have hpassThrough : blockedInterpreter.transformOf
      (.make Element.passThroughKeyword [.number 1] [parameterisedElement "num_col" 2]) [] =
        (.ok (some (.passThrough 1 (.linear lineIntoPlane) 0)), []) :=
    Interpreter.transformOf_of_production (.passThrough (by decide) hcounts rfl
      (Interpreter.transformOf_of_production (.operation (by decide) hline)) rfl)
  exact Interpreter.transformOf_of_production (.concatenation (by decide) rfl
    (Interpreter.transformOf_of_production (.operation (by decide) hflattening))
    (Interpreter.concatenateAll_cons_eq_ok_iff.2
      ⟨_, [], _, [], hpassThrough, by with_unfolding_all rfl, rfl⟩))

/-- The error is that of the second leaf, inside a pass-through, and not that of the first. -/
theorem Built.inverse_of_leaves_blocked :
    blockedMap.inverse = .error (.nonInvertible (.matrixShape 3 2 .square)) ∧
      blockedInterpreter.transformOf (.make Element.inverseKeyword [] [blockedElement]) [] =
        (.error (.transform (.nonInvertible (.matrixShape 3 2 .square))), []) := by
  obtain ⟨-, -, herror, hreport⟩ := Built.inverse_of_leaves blockedMap_built
  have hobstacle : (linear lineIntoPlane).Obstacle (.matrixShape 3 2 .square) :=
    .notSquare (by decide)
  have hlast : LastFailure blockedMap.leaves (.nonInvertible (.matrixShape 3 2 .square)) :=
    ⟨[.affine flattening], .linear lineIntoPlane, [], rfl, hobstacle.inverse_eq,
      List.forall_mem_nil _⟩
  have hinverse := (herror _).2 ⟨_, rfl, hobstacle.ne_nonInvertible, hlast⟩
  exact ⟨hinverse, hreport _ _ _ _ _ _ (by decide) rfl transformOf_blockedElement hinverse⟩

end Transform

end CoordTransform
