import CoordTransform.Proofs.Transform.Homogeneous
import CoordTransform.Proofs.Transform.Safety
import CoordTransform.Proofs.Transform.Sameness

/-!
# Concatenations as Lists of Steps

The transforms in a concatenation may be nested in any way. What a concatenation does depends on
its `steps` alone, the leaves in the order of application: it applies one after the other, and the
first step that fails gives its error. Elements write the same list, one element for each step.

Pass-throughs with the same counts can be merged likewise. The components around them are copied
once or twice, and what is inside sees the same points.
-/

namespace CoordTransform.Transform

variable {α : Type}

/-! ## Steps -/

/-- A step is no concatenation. -/
theorem steps_of_mem_steps {s t : Transform α} (h : s ∈ t.steps) : s.steps = [s] := by
  induction t with
  | concatenated first second ihf ihs =>
    rcases List.mem_append.1 h with hs | hs
    · exact ihf hs
    · exact ihs hs
  | _ =>
    rw [List.mem_singleton.1 h]
    rfl

variable [Scalar α]

/-- One element is written for each step, in the same order. -/
theorem stepElements_eq_map_steps (implied : Option Nat) (t : Transform α) :
    t.stepElements implied = t.steps.map (toElement implied) := by
  induction t with
  | concatenated first second ihf ihs =>
    rw [stepElements, steps, List.map_append, ihf, ihs]
  | _ => rfl

/-! ## Running steps -/

/-- Applies transforms one after the other. The first one that fails ends the run. -/
def applyAll : List (Transform α) → List α → Except (TransformError α) (List α)
  | [], p => .ok p
  | t :: ts, p => t.apply p >>= applyAll ts

theorem applyAll_append (ts us : List (Transform α)) (p : List α) :
    applyAll (ts ++ us) p = applyAll ts p >>= applyAll us := by
  induction ts generalizing p with
  | nil => rfl
  | cons t ts ih =>
    rw [List.cons_append, applyAll, applyAll]
    cases t.apply p with
    | error e => rfl
    | ok q => exact ih q

theorem applyAll_singleton (t : Transform α) (p : List α) : applyAll [t] p = t.apply p := by
  rw [applyAll]
  cases t.apply p <;> rfl

variable {ops : Operation α → Prop} {first second t u : Transform α}

/-- A concatenation applies its two parts one after the other, also to points that its first part
refuses. -/
theorem apply_concatenated (hfits : ∀ op, ops op → op.Fits)
    (ht : (concatenated first second).Sound ops) (p : List α) :
    (concatenated first second).apply p = first.apply p >>= second.apply := by
  obtain ⟨hf, -, hdims⟩ := ht
  by_cases hp : p.length = first.sourceDim
  · rw [apply_of_length (t := concatenated first second) hp, apply_of_length hp, image]
    cases himage : first.image p with
    | error e => rfl
    | ok q =>
      -- The second part is asked for a point of its own length, so it does not refuse it.
      exact (apply_of_length ((length_of_image hfits hf hp himage).trans hdims)).symm
  · rw [apply_of_length_ne (t := concatenated first second) hp, apply_of_length_ne hp]
    rfl

/-- Applying a transform is running its steps. -/
theorem apply_eq_applyAll_steps (hfits : ∀ op, ops op → op.Fits) (ht : t.Sound ops) (p : List α) :
    t.apply p = applyAll t.steps p := by
  induction t generalizing p with
  | concatenated first second ihf ihs =>
    rw [apply_concatenated hfits ht, steps, applyAll_append, ihf ht.1,
      funext (ihs ht.2.1)]
  | _ => exact (applyAll_singleton _ p).symm

/-! ## Steps that differ in memory -/

/-- Images do not depend on the inverses that affine maps remember. -/
theorem image_forget (t : Transform α) (p : List α) : t.forget.image p = t.image p := by
  induction t generalizing p with
  | affine a => rcases p with _ | ⟨x, _ | ⟨y, _ | ⟨z, p⟩⟩⟩ <;> rfl
  | concatenated first second ihf ihs => simp only [forget, image, ihf, ihs]
  | passThrough leading inner trailing ih => simp only [forget, image, ih, sourceDim_forget]
  | _ => rfl

@[simp] theorem apply_forget (t : Transform α) (p : List α) : t.forget.apply p = t.apply p := by
  unfold apply
  rw [sourceDim_forget, image_forget]

theorem applyAll_map_forget (ts : List (Transform α)) (p : List α) :
    applyAll (ts.map forget) p = applyAll ts p := by
  induction ts generalizing p with
  | nil => rfl
  | cons t ts ih => rw [List.map_cons, applyAll, applyAll, apply_forget, funext ih]

omit [Scalar α] in
/-- The first step and the last one have the dimensions of the whole. -/
theorem dims_steps (t : Transform α) :
    t.steps.head?.map sourceDim = some t.sourceDim ∧
      t.steps.getLast?.map targetDim = some t.targetDim := by
  induction t with
  | concatenated first second ihf ihs =>
    obtain ⟨hhead, -⟩ := ihf
    obtain ⟨-, hlast⟩ := ihs
    rw [steps, List.head?_append, List.getLast?_append, Option.map_or, Option.map_or, hhead, hlast]
    exact ⟨rfl, rfl⟩
  | _ => exact ⟨rfl, rfl⟩

omit [Scalar α] in
theorem dims_eq_of_steps (h : t.steps.map forget = u.steps.map forget) :
    t.sourceDim = u.sourceDim ∧ t.targetDim = u.targetDim := by
  have hsource : ∀ t : Transform α,
      (t.steps.map forget).head?.map sourceDim = some t.sourceDim := fun t => by
    rw [List.head?_map, Option.map_map, ← (dims_steps t).1]
    exact congrArg (fun f => t.steps.head?.map f) (funext sourceDim_forget)
  have htarget : ∀ t : Transform α,
      (t.steps.map forget).getLast?.map targetDim = some t.targetDim := fun t => by
    rw [List.getLast?_map, Option.map_map, ← (dims_steps t).2]
    exact congrArg (fun f => t.steps.getLast?.map f) (funext targetDim_forget)
  exact ⟨Option.some.inj ((hsource t).symm.trans (h ▸ hsource u)),
    Option.some.inj ((htarget t).symm.trans (h ▸ htarget u))⟩

/-! ## Pass-throughs -/

/-- Two pass-throughs with the same counts are the pass-through of the concatenation. -/
theorem apply_passThrough_concatenated (hfits : ∀ op, ops op → op.Fits)
    (ht : (concatenated first second).Sound ops) (k n : Nat) (p : List α) :
    (passThrough k (concatenated first second) n).apply p =
      (passThrough k first n).apply p >>= (passThrough k second n).apply := by
  obtain ⟨hf, -, hdims⟩ := ht
  by_cases hp : p.length = k + first.sourceDim + n
  · rw [apply_of_length (t := passThrough k (concatenated first second) n) hp,
      apply_of_length (t := passThrough k first n) hp]
    obtain ⟨a, b, c, rfl, ha, hb, hc⟩ := exists_parts hp
    simp only [image, sourceDim, List.append_assoc, ← ha, ← hb, List.drop_left, List.take_left]
    cases himage : first.image b with
    | error e => rfl
    | ok q =>
      have hq : q.length = second.sourceDim := (length_of_image hfits hf hb himage).trans hdims
      have hjoined : (a ++ (q ++ c)).length = (passThrough a.length second n).sourceDim := by
        rw [sourceDim, List.length_append, List.length_append, hq, hc, Nat.add_assoc]
      -- The second pass-through cuts the point where the first one has joined it.
      change (second.image q >>= fun r => .ok (a ++ (r ++ c))) =
        (passThrough a.length second n).apply (a ++ (q ++ c))
      rw [apply_of_length hjoined]
      simp only [image, ← hq, List.drop_left, List.take_left, List.append_assoc]
      rfl
  · rw [apply_of_length_ne (t := passThrough k (concatenated first second) n) hp,
      apply_of_length_ne (t := passThrough k first n) hp]
    rfl

/-! ## Flattened concatenations -/

/-- A transform does what its steps do one after the other, also where it writes into room that it
is given; its element lists the same steps. Hence transforms whose steps differ in memory at most
give the same results and the same errors, however they are nested. The pass-through of a
concatenation does what the pass-throughs of its two parts do one after the other. -/
theorem apply_flattened (hfits : ∀ op, ops op → op.Fits) :
    (∀ t : Transform α, t.Built ops →
      (∀ s ∈ t.steps, s.steps = [s]) ∧
      (∀ implied, t.stepElements implied = t.steps.map (toElement implied)) ∧
      (∀ p, t.apply p = applyAll t.steps p) ∧
      ∀ p room, p.length = t.sourceDim → room.length = t.targetDim →
        t.applyInto p room = some (applyAll t.steps p)) ∧
    (∀ t u : Transform α, t.Built ops → u.Built ops → t.steps.map forget = u.steps.map forget →
      (t.sourceDim = u.sourceDim ∧ t.targetDim = u.targetDim) ∧ ∀ p, t.apply p = u.apply p) ∧
    ∀ (k n : Nat) (a b c : Transform α), a.Built ops → b.Built ops → concatenate a b = .ok c →
      ∃ d, concatenate (passThrough k a n) (passThrough k b n) = .ok d ∧
        ∀ p, d.apply p = (passThrough k c n).apply p ∧
          (passThrough k a n).apply p >>= (passThrough k b n).apply =
            (passThrough k c n).apply p := by
  refine ⟨fun t ht => ?_, fun t u ht hu hsteps => ?_, fun k n a b c ha hb hc => ?_⟩
  · -- A run of the steps is the transform, in both ways of applying it.
    have hrun := apply_eq_applyAll_steps hfits ht.sound
    refine ⟨fun s hs => steps_of_mem_steps hs, fun implied => stepElements_eq_map_steps implied t,
      hrun, fun p room hp hroom => ?_⟩
    rw [← hrun, apply_of_length hp]
    exact applyInto_eq_image hfits ht.sound hp hroom
  · -- What a step remembers does not show in its results.
    refine ⟨dims_eq_of_steps hsteps, fun p => ?_⟩
    rw [apply_eq_applyAll_steps hfits ht.sound, apply_eq_applyAll_steps hfits hu.sound,
      ← applyAll_map_forget t.steps, hsteps, applyAll_map_forget]
  · -- Both orders of pass-through and concatenation fit, and run the same two steps.
    obtain ⟨hdims, rfl⟩ := concatenate_eq_ok.1 hc
    have hconnected : (passThrough k a n).targetDim = (passThrough k b n).sourceDim := by
      rw [targetDim, sourceDim, hdims]
    have hmerged := apply_passThrough_concatenated hfits
      (⟨ha.sound, hb.sound, hdims⟩ : (concatenated a b).Sound ops) k n
    have happly := apply_concatenated hfits
      (⟨ha.sound, hb.sound, hconnected⟩ :
        (concatenated (passThrough k a n) (passThrough k b n)).Sound ops)
    exact ⟨_, concatenate_eq_ok.2 ⟨hconnected, rfl⟩,
      fun p => ⟨(happly p).trans (hmerged p).symm, (hmerged p).symm⟩⟩

/-- Three steps from the line into the plane, the first two of which are concatenated first. -/
def nestedFirst : Transform ℚ :=
  .concatenated (.concatenated (.linear mapOfLine) (.operation (Shift.operation 1)))
    (.linear mapIntoPlane)

/-- The same steps, the last two of which are concatenated first. -/
def nestedLast : Transform ℚ :=
  .concatenated (.linear mapOfLine)
    (.concatenated (.operation (Shift.operation 1)) (.linear mapIntoPlane))

/-- The first step has no image of `-1`, so neither transform has one, for the same reason. -/
theorem apply_flattened_nested :
    nestedFirst.apply [1] = .ok [6, 15 / 2] ∧ nestedLast.apply [1] = .ok [6, 15 / 2] ∧
      nestedLast.apply [-1] = nestedFirst.apply [-1] ∧
      nestedFirst.apply [-1] = .error (.outOfDomain (.divisor 0 [-1])) ∧
      (passThrough 1 nestedFirst 1).apply [5, -1, 7] =
        .error (.outOfDomain (.divisor 0 [-1])) := by
  have hline : (linear mapOfLine).Built Shift.IsShift :=
    .ofMatrix (m := mapOfLine) (by with_unfolding_all rfl)
  have hshift : (operation (Shift.operation (1 : ℚ))).Built Shift.IsShift := .operation ⟨1, rfl⟩
  have hplane : (linear mapIntoPlane).Built Shift.IsShift :=
    .ofMatrix (m := mapIntoPlane) (by with_unfolding_all rfl)
  have hshifted := Built.concatenate hline hshift rfl
  have hfirst : nestedFirst.Built Shift.IsShift := .concatenate hshifted hplane rfl
  have hlast : nestedLast.Built Shift.IsShift :=
    .concatenate hline (.concatenate hshift hplane rfl) rfl
  have hfits : ∀ op : Operation ℚ, Shift.IsShift op → op.Fits := fun _ => Shift.IsShift.fits
  obtain ⟨hruns, hnested, hmerged⟩ := apply_flattened hfits
  -- The second transform has the steps of the first one, which decide on both points.
  have hone : nestedFirst.apply [1] = .ok [6, 15 / 2] := by with_unfolding_all rfl
  have hnone : nestedFirst.apply [-1] = .error (.outOfDomain (.divisor 0 [-1])) := by
    rw [(hruns nestedFirst hfirst).2.2.1]
    with_unfolding_all rfl
  have hinside : (passThrough 1 nestedFirst 1).apply [5, -1, 7] =
      .error (.outOfDomain (.divisor 0 [-1])) := by
    obtain ⟨d, -, happly⟩ := hmerged 1 1 _ _ nestedFirst hshifted hplane rfl
    rw [← (happly [5, -1, 7]).2]
    with_unfolding_all rfl
  have hsame := (hnested nestedFirst nestedLast hfirst hlast rfl).2
  exact ⟨hone, (hsame [1]).symm.trans hone, (hsame [-1]).symm, hnone, hinside⟩

end CoordTransform.Transform
