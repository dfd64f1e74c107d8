import CoordTransform.Proofs.Shift
import CoordTransform.Proofs.Transform.Inverse
import CoordTransform.Proofs.Transform.Relation

/-!
# Applying Transforms in Place

`apply` makes lists as it goes. Here a transform writes into room that it is given, component by
component, with a buffer for the middle of a concatenation and with parts of the point and of the
room for what is inside of a pass-through. Each component, part and entry is asked for by its
place, and an access out of range ends the computation with `none`; so does an inverse of an
operation that has no backward map.

For the transforms that the constructors make, none of this happens on points of the right length,
whatever the room contains: the transform writes what `apply` gives. A wrong length is the one
reason for an error about dimensions.
-/

namespace CoordTransform

variable {α : Type}

/-! ## Accesses -/

/-- The components from `start` on and before `stop`, if they are there. -/
def slice? (p : List α) (start stop : Nat) : Option (List α) :=
  if start ≤ stop ∧ stop ≤ p.length then some ((p.drop start).take (stop - start)) else none

/-- Writes a component, if it is there. -/
def put? (p : List α) (k : Nat) (x : α) : Option (List α) :=
  if k < p.length then some (p.set k x) else none

/-- Writes the components from `start` on and before `stop`, if they are there and as many as
those of `q`. -/
def copy? (p : List α) (start stop : Nat) (q : List α) : Option (List α) :=
  if start ≤ stop ∧ stop ≤ p.length ∧ q.length = stop - start then
    some (p.take start ++ q ++ p.drop stop)
  else none

theorem slice?_append {a b c : List α} {start stop : Nat} (hstart : a.length = start)
    (hstop : start + b.length = stop) : slice? (a ++ b ++ c) start stop = some b := by
  subst hstart hstop
  rw [slice?, if_pos (by simp), List.append_assoc, List.drop_left, Nat.add_sub_cancel_left,
    List.take_left]

theorem copy?_append {a b c q : List α} {start stop : Nat} (hstart : a.length = start)
    (hstop : start + b.length = stop) (hq : q.length = b.length) :
    copy? (a ++ b ++ c) start stop q = some (a ++ q ++ c) := by
  subst hstart hstop
  have hbefore : (a ++ b ++ c).take a.length = a := by rw [List.append_assoc, List.take_left]
  have hafter : (a ++ b ++ c).drop (a.length + b.length) = c := by
    rw [← List.length_append, List.drop_left]
  rw [copy?, if_pos (by simp [hq]), hbefore, hafter]

/-- A list of three parts with given lengths. -/
theorem exists_parts {p : List α} {k m n : Nat} (hp : p.length = k + m + n) :
    ∃ a b c, p = a ++ b ++ c ∧ a.length = k ∧ b.length = m ∧ c.length = n := by
  refine ⟨p.take k, (p.drop k).take m, (p.drop k).drop m, ?_, ?_, ?_, ?_⟩
  · rw [List.append_assoc, List.take_append_drop, List.take_append_drop]
  · rw [List.length_take]
    omega
  · rw [List.length_take, List.length_drop]
    omega
  · rw [List.length_drop, List.length_drop]
    omega

/-- When no step of a list of steps is out of range, none of them all is. -/
theorem mapM_eq_map {β γ : Type} {l : List β} {f : β → Option γ} {g : β → γ}
    (h : ∀ b ∈ l, f b = some (g b)) : l.mapM f = some (l.map g) := by
  induction l with
  | nil => rfl
  | cons b l ih =>
    rw [List.mapM_cons, h b List.mem_cons_self, ih fun c hc => h c (List.mem_cons_of_mem b hc)]
    rfl

namespace Transform

variable [Scalar α]

/-! ## Homogeneous matrices -/

/-- A row of a homogeneous matrix applied to a point, if the matrix has the entries. -/
def rowValue? (m : DenseMatrix α) (r : Nat) (p : List α) : Option α := do
  let last ← m.get? r (m.cols - 1)
  p.zipIdx.foldlM (fun sum x => (m.get? r x.2).map fun e => sum + e * x.1) last

/-- All rows divided by the last one, as many of them as there is room for. -/
def applyMatrixInto (m : DenseMatrix α) (p room : List α) :
    Option (Except (TransformError α) (List α)) := do
  let w ← rowValue? m (m.rows - 1) p
  if Scalar.isZero w || !Scalar.isFinite w then return .error (.outOfDomain (.divisor w p))
  let q ← (List.range room.length).mapM fun r => (rowValue? m r p).map (· / w)
  return .ok q

theorem get?_eq_entry {m : DenseMatrix α} {r c : Nat} (hr : r < m.rows) (hc : c < m.cols) :
    m.get? r c = some (m.entry r c) := by
  simp [DenseMatrix.entry, DenseMatrix.get?, hr, hc]

theorem rowValue?_eq {m : DenseMatrix α} {r : Nat} {p : List α} (hr : r < m.rows)
    (hp : p.length < m.cols) : rowValue? m r p = some (rowValue m r p) := by
  -- The sum may have any start, and the columns that are still to come any number.
  have hsum : ∀ (q : List α) (k : Nat) (sum : α), k + q.length ≤ m.cols →
      (q.zipIdx k).foldlM (fun sum x => (m.get? r x.2).map fun e => sum + e * x.1) sum =
        some ((q.zipIdx k).foldl (fun sum x => sum + m.entry r x.2 * x.1) sum) := by
    intro q
    induction q with
    | nil => exact fun _ _ _ => rfl
    | cons x q ih =>
      intro k sum hk
      rw [List.length_cons] at hk
      rw [List.zipIdx_cons, List.foldlM_cons, List.foldl_cons, get?_eq_entry hr (by omega)]
      exact ih (k + 1) _ (by omega)
  unfold rowValue? rowValue
  rw [get?_eq_entry hr (by omega)]
  exact hsum p 0 _ (by omega)

theorem applyMatrixInto_eq {m : DenseMatrix α} {p room : List α} (hp : p.length + 1 = m.cols)
    (hroom : room.length + 1 = m.rows) : applyMatrixInto m p room = some (applyMatrix m p) := by
  -- All accesses are in the range of the matrix, of the point and of the room.
  have hw : rowValue? m (m.rows - 1) p = some (rowValue m (m.rows - 1) p) :=
    rowValue?_eq (by omega) (by omega)
  have hrows : ∀ w : α, (List.range room.length).mapM (fun r => (rowValue? m r p).map (· / w)) =
      some ((List.range (m.rows - 1)).map fun r => rowValue m r p / w) := by
    intro w
    rw [← hroom, Nat.add_sub_cancel]
    refine mapM_eq_map fun r hr => ?_
    rw [List.mem_range] at hr
    rw [rowValue?_eq (by omega) (by omega)]
    rfl
  unfold applyMatrixInto applyMatrix
  rw [hw]
  simp only [Option.bind_eq_bind, Option.bind_some]
  split
  · rfl
  · rw [hrows]
    rfl

/-! ## All forms -/

/-- Applies a transform to a point and writes the image into the room. -/
def applyInto : Transform α → List α → List α → Option (Except (TransformError α) (List α))
  | affine a, p, room => do
    let x ← p[0]?
    let y ← p[1]?
    let q := a.apply ⟨x, y⟩
    let room ← put? room 0 q.x
    let room ← put? room 1 q.y
    return .ok room
  | linear m, p, room => applyMatrixInto m p room
  | concatenated first second, p, room => do
    match ← first.applyInto p (List.replicate first.targetDim 0) with
    | .error e => return .error e
    | .ok buffer => second.applyInto buffer room
  | passThrough leading inner _, p, room => do
    let sourceEnd := leading + inner.sourceDim
    let targetEnd := leading + inner.targetDim
    let before ← slice? p 0 leading
    let room ← copy? room 0 leading before
    let affected ← slice? p leading sourceEnd
    let inside ← slice? room leading targetEnd
    match ← inner.applyInto affected inside with
    | .error e => return .error e
    | .ok q => do
      let room ← copy? room leading targetEnd q
      let after ← slice? p sourceEnd p.length
      let room ← copy? room targetEnd room.length after
      return .ok room
  | operation op, p, room =>
    -- A method may rely on the lengths that it declares.
    if p.length = op.sourceDim ∧ room.length = op.targetDim then some (op.forward p) else none
  | inverseOperation op, p, room => do
    let backward ← op.backward?
    if p.length = op.targetDim ∧ room.length = op.sourceDim then some (backward p) else none

variable {ops : Operation α → Prop} {t : Transform α} {p q room : List α}

/-- An image has the length of the target. -/
theorem length_of_image (hfits : ∀ op, ops op → op.Fits) (ht : t.Sound ops)
    (hp : p.length = t.sourceDim) (h : t.image p = .ok q) : q.length = t.targetDim :=
  (relates_of_image (Reading.computed_covers _ _) hfits (fun op hop => hfits op hop.1) ht hp
    h).length.2

/-- The parts of the room around a pass-through are written one after the other. -/
theorem applyInto_passThrough {leading trailing : Nat} {inner : Transform α}
    {a b c x y z : List α} {result : Except (TransformError α) (List α)} (ha : a.length = leading)
    (hb : b.length = inner.sourceDim) (hc : c.length = trailing) (hx : x.length = leading)
    (hy : y.length = inner.targetDim) (hz : z.length = trailing)
    (hinner : inner.applyInto b y = some result)
    (hlength : ∀ q, result = .ok q → q.length = inner.targetDim) :
    (passThrough leading inner trailing).applyInto (a ++ b ++ c) (x ++ y ++ z) =
      some (result.map fun q => a ++ q ++ c) := by
  -- In front: the leading components are copied.
  have hbefore : slice? (a ++ b ++ c) 0 leading = some a := by
    simpa using slice?_append (a := []) (b := a) (c := b ++ c) rfl (by simpa using ha)
  have hfront : copy? (x ++ y ++ z) 0 leading a = some (a ++ y ++ z) := by
    simpa using copy?_append (a := []) (b := x) (c := y ++ z) rfl (by simpa using hx)
      (ha.trans hx.symm)
  -- In the middle: the inner transform gets its own part of the point and of the room.
  have haffected : slice? (a ++ b ++ c) leading (leading + inner.sourceDim) = some b :=
    slice?_append ha (by rw [hb])
  have hinside : slice? (a ++ y ++ z) leading (leading + inner.targetDim) = some y :=
    slice?_append ha (by rw [hy])
  unfold applyInto
  simp only [hbefore, hfront, haffected, hinside, hinner, Option.bind_eq_bind, Option.bind_some]
  cases result with
  | error e => rfl
  | ok q =>
    have hq := hlength q rfl
    -- Behind: the result goes to the middle, and the trailing components are copied.
    have hmiddle : copy? (a ++ y ++ z) leading (leading + inner.targetDim) q =
        some (a ++ q ++ z) := copy?_append ha (by rw [hy]) (hq.trans hy.symm)
    have hafter : slice? (a ++ b ++ c) (leading + inner.sourceDim) (a ++ b ++ c).length =
        some c := by
      simpa using slice?_append (a := a ++ b) (b := c) (c := [])
        (by rw [List.length_append, ha, hb]) (by simp [ha, hb, Nat.add_assoc])
    have hback : copy? (a ++ q ++ z) (leading + inner.targetDim) (a ++ q ++ z).length c =
        some (a ++ q ++ c) := by
      simpa using copy?_append (a := a ++ q) (b := z) (c := [])
        (by rw [List.length_append, ha, hq]) (by simp [ha, hq, Nat.add_assoc]) (hc.trans hz.symm)
    simp only [hmiddle, hafter, hback, Option.bind_some]
    rfl

/-- No access is out of range, and what is written is the image. -/
theorem applyInto_eq_image (hfits : ∀ op, ops op → op.Fits) (ht : t.Sound ops)
    (hp : p.length = t.sourceDim) (hroom : room.length = t.targetDim) :
    t.applyInto p room = some (t.image p) := by
  induction t generalizing p room with
  | affine a =>
    obtain ⟨x, y, rfl⟩ := List.length_eq_two.1 hp
    obtain ⟨u, v, rfl⟩ := List.length_eq_two.1 hroom
    rfl
  | linear m =>
    have hshape : 2 ≤ m.rows ∧ 2 ≤ m.cols := ht
    rw [sourceDim] at hp
    rw [targetDim] at hroom
    exact applyMatrixInto_eq (by omega) (by omega)
  | concatenated first second ihf ihs =>
    obtain ⟨hf, hs, hdims⟩ := ht
    rw [applyInto, ihf hf hp List.length_replicate, image]
    cases himage : first.image p with
    | error e => rfl
    | ok r =>
      -- The buffer has been filled, so the second transform finds a point of its length.
      exact ihs hs ((length_of_image hfits hf hp himage).trans hdims) hroom
  | passThrough leading inner trailing ih =>
    obtain ⟨a, b, c, rfl, ha, hb, hc⟩ := exists_parts hp
    obtain ⟨x, y, z, rfl, hx, hy, hz⟩ := exists_parts hroom
    rw [applyInto_passThrough ha hb hc hx hy hz (ih ht hb hy) fun q hq =>
      length_of_image hfits ht hb hq]
    simp only [image, List.append_assoc, ← ha, ← hb, List.drop_left, List.take_left]
    cases inner.image b <;> rfl
  | operation op => exact if_pos ⟨hp, hroom⟩
  | inverseOperation op =>
    obtain ⟨backward, hbackward⟩ := Option.isSome_iff_exists.1 ht.2
    rw [applyInto, image, Operation.backward, hbackward]
    exact if_pos ⟨hp, hroom⟩

/-! ## Errors about dimensions -/

end Transform

/-- On points of the declared lengths, an operation writes as many components as it declares and
has no complaint about dimensions. -/
structure Operation.Respects (o : Operation α) : Prop extends o.Fits where
  forward_ne : ∀ {p : List α} (c : DimensionContext) (m n : Nat), p.length = o.sourceDim →
    o.forward p ≠ .error (.dimensionMismatch c m n)
  backward_ne : ∀ {p : List α} (c : DimensionContext) (m n : Nat), p.length = o.targetDim →
    o.backward p ≠ .error (.dimensionMismatch c m n)

namespace Transform

variable [Scalar α] {ops : Operation α → Prop} {t : Transform α} {p q room : List α}

/-- A point of the right length meets no error about dimensions on its way. -/
theorem image_ne_dimensionMismatch (hops : ∀ op, ops op → op.Respects) (ht : t.Sound ops)
    (hp : p.length = t.sourceDim) (c : DimensionContext) (m n : Nat) :
    t.image p ≠ .error (.dimensionMismatch c m n) := by
  have hfits : ∀ op, ops op → op.Fits := fun op hop => (hops op hop).toFits
  induction t generalizing p with
  | affine a =>
    obtain ⟨x, y, rfl⟩ := List.length_eq_two.1 hp
    exact fun h => nomatch h
  | linear matrix =>
    intro h
    simp only [image, applyMatrix] at h
    -- The only error of a matrix is that of a point at infinity.
    split at h <;> cases h
  | concatenated first second ihf ihs =>
    obtain ⟨hf, hs, hdims⟩ := ht
    intro h
    rw [image] at h
    -- Either the first step fails, with an error of its own, or the second one gets its image.
    cases himage : first.image p with
    | error e =>
      rw [himage] at h
      cases h
      exact ihf hf hp himage
    | ok r =>
      rw [himage] at h
      exact ihs hs ((length_of_image hfits hf hp himage).trans hdims) h
  | passThrough leading inner trailing ih =>
    obtain ⟨x, y, z, rfl, hx, hy, hz⟩ := exists_parts hp
    intro h
    simp only [image, List.append_assoc, ← hx, ← hy, List.drop_left, List.take_left] at h
    -- Nothing but the inner transform can fail.
    cases himage : inner.image y with
    | error e =>
      rw [himage] at h
      cases h
      exact ih ht hy himage
    | ok r =>
      rw [himage] at h
      cases h
  -- An operation is asked for a point of its own dimension, where it has no such error.
  | operation op => exact (hops op ht).forward_ne c m n hp
  | inverseOperation op => exact (hops op ht.1).backward_ne c m n hp

theorem apply_of_length (hp : p.length = t.sourceDim) : t.apply p = t.image p :=
  if_pos (beq_iff_eq.2 hp)

theorem apply_of_length_ne (hp : p.length ≠ t.sourceDim) :
    t.apply p = .error (.dimensionMismatch .input t.sourceDim p.length) :=
  if_neg (mt beq_iff_eq.1 hp)

/-! ## Points of the plane -/

/-- The target is looked at before the source. -/
theorem applyPoint_of_target_ne (h : t.targetDim ≠ 2) (p : Point α) :
    t.applyPoint p = .error (.dimensionMismatch .output 2 t.targetDim) := by
  cases t with
  | affine a => exact absurd rfl h
  | _ =>
    simp only [applyPoint, bne_iff_ne.2 h, if_true]
    rfl

theorem applyPoint_of_apply_error {p : Point α} {e : TransformError α} (htarget : t.targetDim = 2)
    (h : t.apply [p.x, p.y] = .error e) : t.applyPoint p = .error e := by
  cases t with
  | affine a => cases h
  | _ =>
    simp only [applyPoint, htarget, h]
    rfl

theorem applyPoint_of_apply_ok {p : Point α} {x y : α} (htarget : t.targetDim = 2)
    (h : t.apply [p.x, p.y] = .ok [x, y]) : t.applyPoint p = .ok ⟨x, y⟩ := by
  cases t with
  | affine a =>
    cases h
    rfl
  | _ =>
    simp only [applyPoint, htarget, h]
    rfl

/-- Between planes, `applyPoint` gives the components or the error that `apply` gives. -/
theorem apply_eq_applyPoint (hfits : ∀ op, ops op → op.Fits) (ht : t.Sound ops)
    (hsource : t.sourceDim = 2) (htarget : t.targetDim = 2) (p : Point α) :
    t.apply [p.x, p.y] = (t.applyPoint p).map fun q => [q.x, q.y] := by
  have hp : [p.x, p.y].length = t.sourceDim := hsource.symm
  -- Both ask for the same image, which has two components.
  cases hresult : t.apply [p.x, p.y] with
  | error e =>
    rw [applyPoint_of_apply_error htarget hresult]
    rfl
  | ok q =>
    have hlength : q.length = 2 :=
      (length_of_image hfits ht hp ((apply_of_length hp).symm.trans hresult)).trans htarget
    obtain ⟨x, y, rfl⟩ := List.length_eq_two.1 hlength
    rw [applyPoint_of_apply_ok htarget hresult]
    rfl

/-! ## Safety -/

/-- Applying a transform that the constructors have made is safe. A point of a wrong length is
refused, and nothing else is an error about dimensions. On a point of the right length, with as
much room as the target has components, every access is in range and every inverse is one of an
operation with a backward map; what is written is the result of `apply`, with as many components as
the target. Between planes `applyPoint` does the same, and it refuses all other dimensions. -/
theorem Built.apply_safe (hops : ∀ op, ops op → op.Respects) (ht : t.Built ops) :
    (∀ p c m n, t.apply p = .error (.dimensionMismatch c m n) ↔
        p.length ≠ t.sourceDim ∧ (c, m, n) = (.input, t.sourceDim, p.length)) ∧
      (∀ p room, p.length = t.sourceDim → room.length = t.targetDim →
        t.applyInto p room = some (t.apply p)) ∧
      (∀ p q, t.apply p = .ok q → q.length = t.targetDim) ∧
      (t.sourceDim = 2 ∧ t.targetDim = 2 → ∀ p : Point α,
        t.apply [p.x, p.y] = (t.applyPoint p).map fun q => [q.x, q.y]) ∧
      (¬(t.sourceDim = 2 ∧ t.targetDim = 2) → ∀ p : Point α, t.applyPoint p =
        .error (if t.targetDim = 2 then .dimensionMismatch .input t.sourceDim 2
          else .dimensionMismatch .output 2 t.targetDim)) := by
  have hfits : ∀ op, ops op → op.Fits := fun op hop => (hops op hop).toFits
  refine ⟨fun p c m n => ?_, fun p room hp hroom => ?_, fun p q hq => ?_,
    fun hdims p => apply_eq_applyPoint hfits ht.sound hdims.1 hdims.2 p, fun hdims p => ?_⟩
  · by_cases hp : p.length = t.sourceDim
    · -- A point that fits has no error about dimensions, a point that does not fit has this one
      -- only.
      have hnone := image_ne_dimensionMismatch hops ht.sound hp c m n
      rw [apply_of_length hp]
      exact ⟨fun h => absurd h hnone, fun h => absurd hp h.1⟩
    · rw [apply_of_length_ne hp]
      constructor
      · rintro ⟨⟩
        exact ⟨hp, rfl⟩
      · rintro ⟨-, ⟨⟩⟩
        rfl
  · -- What is written to the room is the image.
    rw [apply_of_length hp]
    exact applyInto_eq_image hfits ht.sound hp hroom
  · exact (relates_of_apply (Reading.computed_covers _ _) hfits (fun op hop => hfits op hop.1)
      ht.sound hq).length.2
  · -- With a target of two dimensions the source has others, and that of the point is refused.
    by_cases htarget : t.targetDim = 2
    · have hsource : [p.x, p.y].length ≠ t.sourceDim := fun h => hdims ⟨h.symm, htarget⟩
      rw [if_pos htarget]
      exact applyPoint_of_apply_error htarget (apply_of_length_ne hsource)
    · rw [if_neg htarget]
      exact applyPoint_of_target_ne htarget p

end Transform

/-! ## Shifts -/

theorem Shift.IsShift.respects [Scalar α] {op : Operation α} (h : IsShift op) : op.Respects := by
  refine { h.fits with forward_ne := ?_, backward_ne := ?_ }
  · obtain ⟨d, rfl⟩ := h
    rintro p c m n - ⟨⟩
  · obtain ⟨d, rfl⟩ := h
    rintro p c m n - ⟨⟩

namespace Transform

/-- The inverse of a stepped map is applied in the room of an earlier image; a point that is too
short is refused, and applying the map to it all the same would read beyond its end. -/
theorem Built.apply_safe_stepped :
    inverseOfStepped.applyInto [5, 5 / 2, 7] [9, 9, 9] = some (.ok [5, 1, 7]) ∧
      inverseOfStepped.applyInto [5] [9, 9, 9] = none ∧
      inverseOfStepped.apply [5] = .error (.dimensionMismatch .input 3 1) ∧
      inverseOfStepped.applyPoint ⟨5, 7⟩ = .error (.dimensionMismatch .output 2 3) := by
  have hinverse : steppedMap.inverse = .ok inverseOfStepped := by with_unfolding_all rfl
  have himage : inverseOfStepped.apply [5, 5 / 2, 7] = .ok [5, 1, 7] := by with_unfolding_all rfl
  obtain ⟨hmismatch, hinto, -, -, hpoint⟩ :=
    Built.apply_safe (fun _ => Shift.IsShift.respects) (.inverse steppedMap_built hinverse)
  refine ⟨?_, rfl, (hmismatch [5] _ _ _).2 ⟨by decide, rfl⟩, hpoint (by decide) _⟩
  rw [hinto [5, 5 / 2, 7] [9, 9, 9] rfl rfl, himage]

end Transform

end CoordTransform
