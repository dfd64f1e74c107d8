import Mathlib
import CoordTransform.Coordinate
import CoordTransform.Proofs.Computation
import CoordTransform.Scalar.Double

/-!
# Filtering in Place

Coordinates are filtered where they stand: the components of an image are written one by one, the
coordinates of a list one after the other, and whatever has been written stays there when a later
step fails. `filterInPlace` and `filterAllInPlace` compute in this way.

A coordinate is written only after its whole image is known, so that it is replaced as a whole or
not at all (`filterInPlace_eq`). A list is filtered up to the first coordinate that has no image
(`filterAllInPlace_eq`). The main result says what the list is then, what the error is, and what
becomes of the heights.
-/

namespace CoordTransform.Coordinate

variable {α : Type} [Scalar α]

/-! ## Writing into coordinates -/

/-- Computations that write into a state and may fail. What has been written stays there when they
fail. -/
abbrev Writing (α σ : Type) : Type → Type := ExceptT (FilterError α) (StateM σ)

/-- Writes the components of the plane. -/
def putPlane (x y : α) : Writing α (Coordinate α) Unit := do
  modify ({ · with x })
  modify ({ · with y })

/-- Replaces a coordinate by its image, component by component. -/
def filterInPlace (t : Transform α) : Writing α (Coordinate α) Unit := do
  let c ← get
  match t.sourceDim, t.targetDim with
  | 2, 2 =>
    match t.apply [c.x, c.y] with
    | .ok [x, y] => putPlane x y
    | .ok q => throw (.transform (.dimensionMismatch .output 2 q.length))
    | .error e => throw (.transform e)
  | 3, 3 =>
    match t.apply [c.x, c.y, if c.hasZ then c.z else 0] with
    | .ok [x, y, z] =>
      putPlane x y
      if (← get).hasZ then modify ({ · with z })
    | .ok q => throw (.transform (.dimensionMismatch .output 3 q.length))
    | .error e => throw (.transform e)
  | source, target => throw (.dimensions source target)

/-- Replaces the coordinate at one place of a list. -/
def filterAt (t : Transform α) (k : Nat) : Writing α (List (Coordinate α)) Unit := fun cs =>
  match cs[k]? with
  | none => (.ok (), cs)
  | some c =>
    let (result, d) := filterInPlace t c
    (result, cs.set k d)

/-- Replaces the coordinates of a list, one place after the other. -/
def filterAllInPlace (t : Transform α) : Writing α (List (Coordinate α)) Unit := do
  let cs ← get
  forM (List.range cs.length) (filterAt t)

/-- A new value, or an error and the old value. -/
def replaced {ε β : Type} (old : β) : Except ε β → Except ε Unit × β
  | .ok new => (.ok (), new)
  | .error e => (.error e, old)

variable {t : Transform α} {c d : Coordinate α} {e : FilterError α}

theorem filter_of_dims_ne (hplane : ¬(t.sourceDim = 2 ∧ t.targetDim = 2))
    (hspace : ¬(t.sourceDim = 3 ∧ t.targetDim = 3)) (c : Coordinate α) :
    filter t c = .error (.dimensions t.sourceDim t.targetDim) := by
  unfold filter
  split
  · next hsource htarget => exact absurd ⟨hsource, htarget⟩ hplane
  · next hsource htarget => exact absurd ⟨hsource, htarget⟩ hspace
  · rfl

/-- A coordinate is written only when all components of its image are known. -/
theorem filterInPlace_eq (t : Transform α) (c : Coordinate α) :
    filterInPlace t c = replaced c (filter t c) := by
  have hget : (get : Writing α (Coordinate α) (Coordinate α)) c = (.ok c, c) := rfl
  by_cases hdims : (t.sourceDim = 2 ∧ t.targetDim = 2) ∨ (t.sourceDim = 3 ∧ t.targetDim = 3)
  · unfold filterInPlace filter
    rw [stateBind_of_ok hget]
    generalize t.sourceDim = source, t.targetDim = target at hdims ⊢
    split
    -- An image of any other length is refused by both, whatever stands in it.
    · generalize t.apply [c.x, c.y] = image
      split
      · rfl
      · next q hlength =>
        rcases q with _ | ⟨x, _ | ⟨y, _ | ⟨z, q⟩⟩⟩
        · rfl
        · rfl
        · exact (hlength x y rfl).elim
        · rfl
      · rfl
    · generalize t.apply [c.x, c.y, if c.hasZ then c.z else 0] = image
      split
      · next x y z =>
        have hput : putPlane x y c = (.ok (), { c with x, y }) := rfl
        have hwritten : (get : Writing α (Coordinate α) (Coordinate α)) { c with x, y } =
            (.ok { c with x, y }, { c with x, y }) := rfl
        rw [stateBind_of_ok hput, stateBind_of_ok hwritten]
        -- Writing the plane does not change whether there is a height.
        change (if c.hasZ then _ else _ : Writing α (Coordinate α) Unit) _ =
          (.ok (), ⟨x, y, if c.hasZ then z else c.z⟩)
        split
        · rfl
        · rfl
      · next q hlength =>
        rcases q with _ | ⟨x, _ | ⟨y, _ | ⟨z, _ | ⟨w, q⟩⟩⟩⟩
        · rfl
        · rfl
        · rfl
        · exact (hlength x y z rfl).elim
        · rfl
      · rfl
    · next hplane hspace =>
      exact (hdims.elim (fun h => hplane h.1 h.2) fun h => hspace h.1 h.2).elim
  · rw [not_or] at hdims
    rw [filter_of_dims_ne hdims.1 hdims.2]
    unfold filterInPlace
    rw [stateBind_of_ok hget]
    generalize t.sourceDim = source, t.targetDim = target at hdims ⊢
    split
    · exact absurd ⟨rfl, rfl⟩ hdims.1
    · exact absurd ⟨rfl, rfl⟩ hdims.2
    · rfl

/-! ## Lists of coordinates -/

/-- Success when there is no error. -/
def verdict {ε : Type} : Option ε → Except ε Unit
  | none => .ok ()
  | some e => .error e

theorem filterAt_append (t : Transform α) (done : List (Coordinate α)) (c : Coordinate α)
    (cs : List (Coordinate α)) : filterAt t done.length (done ++ c :: cs) =
      ((replaced c (filter t c)).1, done ++ (replaced c (filter t c)).2 :: cs) := by
  have hc : (done ++ c :: cs)[done.length]? = some c := by simp
  rw [filterAt, hc]
  dsimp only
  rw [filterInPlace_eq]
  dsimp only
  rw [List.set_append_right _ _ (le_refl _), Nat.sub_self, List.set_cons_zero]

/-- The loop over the places that are still to come, behind those that are done. -/
theorem forM_filterAt (t : Transform α) (cs done : List (Coordinate α)) :
    forM (List.range' done.length cs.length) (filterAt t) (done ++ cs) =
      (verdict (filterAll t cs).2, done ++ (filterAll t cs).1) := by
  -- Each step moves the coordinate at its place to those that are done.
  induction cs generalizing done with
  | nil => rfl
  | cons c cs ih =>
    have hstep := filterAt_append t done c cs
    rw [List.length_cons, List.range'_succ, List.forM_cons, filterAll]
    cases hfilter : filter t c with
    | error e =>
      rw [hfilter] at hstep
      exact stateBind_of_error hstep
    | ok d =>
      rw [hfilter] at hstep
      rw [stateBind_of_ok hstep]
      have hrest := ih (done ++ [d])
      rw [List.length_append, List.length_singleton, List.append_assoc, List.append_assoc] at hrest
      exact hrest

theorem filterAllInPlace_eq (t : Transform α) (cs : List (Coordinate α)) :
    filterAllInPlace t cs = (verdict (filterAll t cs).2, (filterAll t cs).1) := by
  unfold filterAllInPlace
  have hget : (get : Writing α (List (Coordinate α)) (List (Coordinate α))) cs = (.ok cs, cs) := rfl
  rw [stateBind_of_ok hget, List.range_eq_range']
  exact forM_filterAt t cs []

/-! ## Images -/

/-- Between planes the height is kept. Between spaces it is that of the image, if there was one. -/
theorem image_of_filter (h : filter t c = .ok d) :
    ((t.sourceDim = 2 ∧ t.targetDim = 2) ∧ t.apply [c.x, c.y] = .ok [d.x, d.y] ∧ d.z = c.z) ∨
    (t.sourceDim = 3 ∧ t.targetDim = 3) ∧
      ∃ z, t.apply [c.x, c.y, if c.hasZ then c.z else 0] = .ok [d.x, d.y, z] ∧
        d.z = if c.hasZ then z else c.z := by
  -- The dimensions of the transform decide how many components the point and its image have.
  unfold filter at h
  split at h
  · next hsource htarget =>
    split at h
    · next himage =>
      cases h
      exact .inl ⟨⟨hsource, htarget⟩, himage, rfl⟩
    · cases h
    · cases h
  · next hsource htarget =>
    split at h
    · next z himage =>
      cases h
      exact .inr ⟨⟨hsource, htarget⟩, z, himage, rfl⟩
    · cases h
    · cases h
  · cases h

/-! ## All or a first failure -/

variable {cs ds : List (Coordinate α)}

theorem filterAll_cons_of_ok (h : filter t c = .ok d) :
    filterAll t (c :: cs) = (d :: (filterAll t cs).1, (filterAll t cs).2) := by
  rw [filterAll, h]

theorem filterAll_cons_of_error (h : filter t c = .error e) :
    filterAll t (c :: cs) = (c :: cs, some e) := by
  rw [filterAll, h]

theorem filterAll_eq_none_iff :
    filterAll t cs = (ds, none) ↔ List.Forall₂ (fun c d => filter t c = .ok d) cs ds := by
  induction cs generalizing ds with
  | nil =>
    rw [List.forall₂_nil_left_iff, filterAll, Prod.mk.injEq]
    exact ⟨fun h => h.1.symm, fun h => ⟨h.symm, rfl⟩⟩
  | cons c cs ih =>
    rw [List.forall₂_cons_left_iff]
    -- The first coordinate decides: a failure ends the filtering, an image is put in front of the
    -- rest.
    cases hfilter : filter t c with
    | error e =>
      rw [filterAll_cons_of_error hfilter]
      simp
    | ok d =>
      rw [filterAll_cons_of_ok hfilter]
      constructor
      · intro h
        obtain ⟨hds, hnone⟩ := Prod.mk.inj h
        exact ⟨d, _, rfl, ih.1 (Prod.ext rfl hnone), hds.symm⟩
      · rintro ⟨d', rest, hd', hrest, rfl⟩
        obtain rfl : d = d' := Except.ok.inj hd'
        rw [ih.2 hrest]

theorem filterAll_eq_some_iff :
    filterAll t cs = (ds, some e) ↔ ∃ before before' c after,
      cs = before ++ c :: after ∧ ds = before' ++ c :: after ∧
        List.Forall₂ (fun c d => filter t c = .ok d) before before' ∧ filter t c = .error e := by
  constructor
  · intro h
    -- The loop is cut where it stops: the images made so far, the failing coordinate, and the rest.
    induction cs generalizing ds with
    | nil => cases h
    | cons c cs ih =>
      cases hfilter : filter t c with
      | error e' =>
        rw [filterAll_cons_of_error hfilter] at h
        cases h
        exact ⟨[], [], c, cs, rfl, rfl, .nil, hfilter⟩
      | ok d =>
        rw [filterAll_cons_of_ok hfilter] at h
        obtain ⟨rfl, hsome⟩ := Prod.mk.inj h
        obtain ⟨before, before', c', after, rfl, hds, hbefore, herror⟩ := ih (Prod.ext rfl hsome)
        exact ⟨c :: before, d :: before', c', after, rfl, congrArg (d :: ·) hds,
          .cons hfilter hbefore, herror⟩
  · rintro ⟨before, before', c, after, rfl, rfl, hbefore, herror⟩
    -- The induction is on the coordinates that have images.
    induction hbefore with
    | nil => exact filterAll_cons_of_error herror
    | cons hfilter _ ih =>
      rw [List.cons_append, filterAll_cons_of_ok hfilter, ih, List.cons_append]

/-- There is no error exactly when every coordinate has an image by itself. -/
theorem filterAll_ok_iff : (filterAll t cs).2 = none ↔ ∀ c ∈ cs, ∃ d, filter t c = .ok d := by
  induction cs with
  | nil => exact iff_of_true rfl (List.forall_mem_nil _)
  | cons c cs ih =>
    rw [List.forall_mem_cons]
    cases hfilter : filter t c with
    | error e =>
      rw [filterAll_cons_of_error hfilter]
      exact iff_of_false (fun h => nomatch h) fun h => nomatch h.1
    | ok d =>
      rw [filterAll_cons_of_ok hfilter, ih]
      exact ⟨fun h => ⟨⟨d, rfl⟩, h⟩, fun h => h.2⟩

/-! ## Results in place -/

/-- A coordinate becomes its image, and nothing is reported unless it has one. -/
theorem filterInPlace_eq_ok_iff : filterInPlace t c = (.ok (), d) ↔ filter t c = .ok d := by
  rw [filterInPlace_eq]
  cases filter t c with
  | error e => exact iff_of_false (fun h => nomatch h) fun h => nomatch h
  | ok d' =>
    constructor
    · rintro ⟨⟩
      rfl
    · rintro ⟨⟩
      rfl

/-- A coordinate without an image is left as it was. -/
theorem filterInPlace_eq_error_iff :
    filterInPlace t c = (.error e, d) ↔ filter t c = .error e ∧ d = c := by
  rw [filterInPlace_eq]
  cases filter t c with
  | error e' =>
    constructor
    · rintro ⟨⟩
      exact ⟨rfl, rfl⟩
    · rintro ⟨⟨⟩, rfl⟩
      rfl
  | ok d' => exact iff_of_false (fun h => nomatch h) fun h => nomatch h.1

theorem filterAllInPlace_eq_ok_iff :
    filterAllInPlace t cs = (.ok (), ds) ↔ filterAll t cs = (ds, none) := by
  rw [filterAllInPlace_eq]
  obtain ⟨rest, result⟩ := filterAll t cs
  constructor
  · intro h
    cases result <;> cases h
    rfl
  · rintro ⟨⟩
    rfl

theorem filterAllInPlace_eq_error_iff :
    filterAllInPlace t cs = (.error e, ds) ↔ filterAll t cs = (ds, some e) := by
  rw [filterAllInPlace_eq]
  obtain ⟨rest, result⟩ := filterAll t cs
  constructor
  · intro h
    cases result <;> cases h
    rfl
  · rintro ⟨⟩
    rfl

/-- Filtering is atomic for each coordinate and stops at the first failure. In place, a coordinate
becomes its image, or it is left as it was when there is an error; in a list all coordinates become
their images, or those before the first one without an image do while that one and all after it are
left as they were, and the error is that of the first one. Only transforms from the plane to itself
and from space to itself give images. The former never change a height, and none adds a height. -/
theorem filterAll_atomic (t : Transform α) :
    (∀ c d, filterInPlace t c = (.ok (), d) ↔ filter t c = .ok d) ∧
    (∀ c d e, filterInPlace t c = (.error e, d) ↔ filter t c = .error e ∧ d = c) ∧
    (∀ cs, filterAllInPlace t cs = (verdict (filterAll t cs).2, (filterAll t cs).1)) ∧
    (∀ cs, (filterAllInPlace t cs).1 = .ok () ↔ ∀ c ∈ cs, ∃ d, filter t c = .ok d) ∧
    (∀ cs ds, filterAllInPlace t cs = (.ok (), ds) ↔
      List.Forall₂ (fun c d => filter t c = .ok d) cs ds) ∧
    (∀ cs ds e, filterAllInPlace t cs = (.error e, ds) ↔ ∃ before before' c after,
      cs = before ++ c :: after ∧ ds = before' ++ c :: after ∧
        List.Forall₂ (fun c d => filter t c = .ok d) before before' ∧ filter t c = .error e) ∧
    (¬(t.sourceDim = 2 ∧ t.targetDim = 2) → ¬(t.sourceDim = 3 ∧ t.targetDim = 3) →
      ∀ c, filter t c = .error (.dimensions t.sourceDim t.targetDim)) ∧
    (∀ c d, filter t c = .ok d → t.sourceDim = 2 → d.z = c.z) ∧
    ∀ c d, filter t c = .ok d → c.hasZ = false → d.z = c.z := by
  refine ⟨fun c d => filterInPlace_eq_ok_iff, fun c d e => filterInPlace_eq_error_iff,
    filterAllInPlace_eq t, fun cs => ?_, fun cs ds => ?_, fun cs ds e => ?_, filter_of_dims_ne,
    fun c d h hsource => ?_, fun c d h hmissing => ?_⟩
  · rw [← filterAll_ok_iff, filterAllInPlace_eq]
    -- The verdict is an error exactly when there is one.
    cases (filterAll t cs).2 <;> simp [verdict]
  · rw [filterAllInPlace_eq_ok_iff, filterAll_eq_none_iff]
  · rw [filterAllInPlace_eq_error_iff, filterAll_eq_some_iff]
  · -- Only an image in space has a new height, and the source has two dimensions here.
    obtain ⟨-, -, hz⟩ | ⟨⟨hspace, -⟩, -⟩ := image_of_filter h
    · exact hz
    · omega
  · obtain ⟨-, -, hz⟩ | ⟨-, z, -, hz⟩ := image_of_filter h
    · exact hz
    · rw [hz, hmissing, if_neg Bool.false_ne_true]

/-- A projective map that divides by the first component. -/
def dividing : Transform Float :=
  .linear (.ofFn 3 3 fun r c => if r = c ∧ r < 2 ∨ r = 2 ∧ c = 0 then 1 else 0)

/-- A displacement of space along the third axis. -/
def raising : Transform Float :=
  .linear (.ofFn 4 4 fun r c => if r = c then 1 else if r = 2 ∧ c = 3 then 100 else 0)

/-- The second coordinate has no image: the first one has been divided with its height kept, the
other two are as before. A missing height is not raised, and four dimensions are too many. -/
theorem filterAll_atomic_dividing :
    filterAllInPlace dividing [⟨2, 4, 7⟩, plane 0 1, plane 4 4] =
      (.error (.transform (.outOfDomain (.divisor 0 [0, 1]))),
        [⟨1, 2, 7⟩, plane 0 1, plane 4 4]) ∧
    (filter dividing ⟨2, 4, 7⟩ = .ok ⟨1, 2, 7⟩ ∧ dividing.sourceDim = 2 ∧
      (⟨1, 2, 7⟩ : Coordinate Float).z = (⟨2, 4, 7⟩ : Coordinate Float).z) ∧
    ((plane 1 2 : Coordinate Float).hasZ = false ∧
      ∃ d, filter raising (plane 1 2) = .ok d ∧ d.z = (plane 1 2).z) ∧
    filter (.passThrough 1 dividing 1) ⟨1, 2, 3⟩ = .error (.dimensions 4 4) := by
  have hfirst : filter dividing ⟨2, 4, 7⟩ = .ok ⟨1, 2, 7⟩ := by with_unfolding_all rfl
  have hsecond : filter dividing (plane 0 1) =
      .error (.transform (.outOfDomain (.divisor 0 [0, 1]))) := by with_unfolding_all rfl
  have hmissing : (plane 1 2 : Coordinate Float).hasZ = false := by decide +kernel
  obtain ⟨d, hraised⟩ : ∃ d, filter raising (plane 1 2) = .ok d := ⟨_, by with_unfolding_all rfl⟩
  obtain ⟨-, -, -, -, -, hfailure, -, hkept, -⟩ := filterAll_atomic dividing
  obtain ⟨-, -, -, -, -, -, -, -, hnone⟩ := filterAll_atomic raising
  obtain ⟨-, -, -, -, -, -, hdims, -, -⟩ := filterAll_atomic (.passThrough 1 dividing 1)
  refine ⟨?_, ⟨hfirst, rfl, hkept _ _ hfirst rfl⟩,
    ⟨hmissing, d, hraised, hnone _ d hraised hmissing⟩, hdims (by decide) (by decide) _⟩
  exact (hfailure _ _ _).2 ⟨[⟨2, 4, 7⟩], [⟨1, 2, 7⟩], plane 0 1, [plane 4 4], rfl, rfl,
    .cons hfirst .nil, hsecond⟩

end CoordTransform.Coordinate
