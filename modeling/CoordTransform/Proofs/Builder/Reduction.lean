import CoordTransform.Proofs.Element.NormalForms

/-!
# Concatenations are Kept or Get Smaller

The builder puts two transforms one after the other as they are, or it simplifies them. When it
simplifies, what comes out has fewer leaves and pass-throughs than the two transforms together. So
the size of a result tells whether there was anything to simplify.
-/

namespace CoordTransform

variable {α : Type} [Scalar α]

namespace Transform

/-! ## Sizes -/

omit [Scalar α] in
/-- The number of leaves and pass-throughs. -/
def size : Transform α → Nat
  | concatenated first second => first.size + second.size
  | passThrough _ inner _ => inner.size + 1
  | _ => 1

variable {t u r s first second first' second' : Transform α} {p q : Prop}

omit [Scalar α] in
theorem size_pos (t : Transform α) : 0 < t.size := by
  induction t with
  | concatenated first second ihf _ => exact Nat.add_pos_left ihf _
  | passThrough leading inner trailing _ => exact Nat.succ_pos _
  | _ => exact Nat.one_pos

omit [Scalar α] in
@[simp] theorem size_forget (t : Transform α) : t.forget.size = t.size := by
  induction t with
  | concatenated first second ihf ihs => simp only [forget, size, ihf, ihs]
  | passThrough leading inner trailing ih => simp only [forget, size, ih]
  | _ => rfl

omit [Scalar α] in
theorem size_eq_of_forget (h : t.forget = u.forget) : t.size = u.size := by
  rw [← size_forget t, h, size_forget]

theorem size_eq_of_same (h : u.same t = true) : u.size = t.size := by
  -- Transforms that are the same have the same form.
  induction u generalizing t with
  | concatenated first second ihf ihs =>
    cases t with
    | concatenated first' second' =>
      rw [same, Bool.and_eq_true] at h
      rw [size, size, ihf h.1, ihs h.2]
    | _ => cases h
  | passThrough leading inner trailing ih =>
    cases t with
    | passThrough leading' inner' trailing' =>
      rw [same, Bool.and_eq_true] at h
      rw [size, size, ih h.2]
    | _ => cases h
  | _ =>
    cases t with
    | concatenated _ _ => cases h
    | passThrough _ _ _ => cases h
    | _ => rfl

theorem size_of_ofMatrix {m : DenseMatrix α} (h : ofMatrix m = .ok t) : t.size = 1 := by
  obtain ⟨a, -, rfl⟩ | ⟨rfl, -⟩ := ofMatrix_eq_ok h
  · rfl
  · rfl

/-! ## Kept transforms -/

/-- Neither of two transforms is an identity, and the builder leaves them apart. -/
def Joins (first second : Transform α) : Prop :=
  first.isIdentity = false ∧ second.isIdentity = false ∧ Apart first second

theorem Joins.of_forget (h : Joins first second) (hfirst : first'.forget = first.forget)
    (hsecond : second'.forget = second.forget) : Joins first' second' := by
  obtain ⟨hid, hid', hapart⟩ := h
  exact ⟨(isIdentity_eq_of_forget hfirst).trans hid, (isIdentity_eq_of_forget hsecond).trans hid',
    hapart.of_forget hfirst hsecond⟩

/-- `u` is `r` up to memory if `p` holds, and smaller than `r` otherwise. -/
def Reduces (p : Prop) (u r : Transform α) : Prop :=
  (p → u.forget = r.forget) ∧ (¬p → u.size < r.size)

omit [Scalar α] in
theorem Reduces.of_forget (h : u.forget = r.forget) : Reduces True u r :=
  ⟨fun _ => h, fun hfalse => absurd trivial hfalse⟩

omit [Scalar α] in
theorem Reduces.of_lt (hp : ¬p) (h : u.size < r.size) : Reduces p u r :=
  ⟨fun hp' => absurd hp' hp, fun _ => h⟩

omit [Scalar α] in
theorem Reduces.congr (h : Reduces p u r) (hpq : p ↔ q) : Reduces q u r :=
  ⟨fun hq => h.1 (hpq.2 hq), fun hq => h.2 fun hp => hq (hpq.1 hp)⟩

omit [Scalar α] in
theorem Reduces.size_le (h : Reduces p u r) : u.size ≤ r.size := by
  by_cases hp : p
  · exact (size_eq_of_forget (h.1 hp)).le
  · exact (h.2 hp).le

/-- Parts that reduce make a concatenation that reduces: all three have to be kept. -/
theorem Reduces.concatenated (hfirst : Reduces p first r) (hsecond : Reduces q second s)
    (h : Reduces (Joins first second) u (.concatenated first second)) :
    Reduces (p ∧ q ∧ Joins r s) u (.concatenated r s) := by
  have hsize := h.size_le
  have hr := hfirst.size_le
  have hs := hsecond.size_le
  simp only [size] at hsize
  -- The first part that is not kept makes the whole smaller; if all are, the whole is what it was.
  by_cases hp : p
  · by_cases hq : q
    · have hfirst := hfirst.1 hp
      have hsecond := hsecond.1 hq
      by_cases hjoins : Joins r s
      · refine ⟨fun _ => ?_, fun hnot => absurd ⟨hp, hq, hjoins⟩ hnot⟩
        rw [h.1 (hjoins.of_forget hfirst hsecond), forget, forget, hfirst, hsecond]
      · refine .of_lt (fun hall => hjoins hall.2.2) ?_
        have hlt := h.2 fun hjoins' => hjoins (hjoins'.of_forget hfirst.symm hsecond.symm)
        rw [size] at hlt ⊢
        rwa [← size_eq_of_forget hfirst, ← size_eq_of_forget hsecond]
    · have hlt := hsecond.2 hq
      refine .of_lt (fun hall => hq hall.2.1) ?_
      rw [size]
      omega
  · have hlt := hfirst.2 hp
    refine .of_lt (fun hall => hp hall.1) ?_
    rw [size]
    omega

end Transform

/-! ## The builder -/

namespace Builder

open Transform

variable {ops : Operation α → Prop} {f : Builder α} {pool pool' : Pool α}
  {t u first second : Transform α}

omit [Scalar α] in
theorem eq_ok_of_lift {β : Type} {r : Except (TransformError α) β} {b : β}
    (h : (ExceptT.mk (Pure.pure r) : Build α β) pool = (.ok b, pool')) :
    r = .ok b ∧ pool = pool' := by
  cases h
  exact ⟨rfl, rfl⟩

/-- What the builder does with two transforms. -/
inductive Concatenation (f : Builder α) :
    Transform α → Transform α → Pool α → Transform α → Pool α → Prop where
  | dropFirst {first second : Transform α} {pool : Pool α} : first.isIdentity = true →
      Concatenation f first second pool second pool
  | dropSecond {first second : Transform α} {pool : Pool α} : second.isIdentity = true →
      Concatenation f first second pool first pool
  | product {first second u : Transform α} {pool pool' : Pool α} {m n p : DenseMatrix α} :
      ownMatrix? first = some m → ownMatrix? second = some n →
      f.ofMatrix p pool = (.ok u, pool') → Concatenation f first second pool u pool'
  | merge {leading trailing : Nat} {a b inner u : Transform α} {pool pool₁ pool' : Pool α} :
      Concatenation f a b pool inner pool₁ →
      f.passThrough leading inner trailing pool₁ = (.ok u, pool') →
      Concatenation f (.passThrough leading a trailing) (.passThrough leading b trailing) pool u
        pool'
  | join {first second u : Transform α} {pool pool' : Pool α} : Joins first second →
      first.targetDim = second.sourceDim →
      f.pooled (.concatenated first second) pool = (.ok u, pool') →
      Concatenation f first second pool u pool'

theorem concatenation_of_leadingSteps {rest : Build α (Transform α)}
    (h : f.leadingSteps first second rest pool = (.ok u, pool'))
    (hrest : first.targetDim = second.sourceDim → first.isIdentity = false →
      second.isIdentity = false → (ownMatrix? first = none ∨ ownMatrix? second = none) →
      rest pool = (.ok u, pool') → Concatenation f first second pool u pool') :
    Concatenation f first second pool u pool' := by
  unfold leadingSteps at h
  obtain ⟨_, pool₁, hlift, h⟩ := stateBind_eq_ok h
  obtain ⟨hrequire, rfl⟩ := eq_ok_of_lift hlift
  have hdims := connected_of_requireConnected hrequire
  -- An identity is dropped, two matrices are multiplied, and all else is left to the last step.
  split at h
  · next hid =>
    cases h
    exact .dropFirst hid
  split at h
  · next hid =>
    cases h
    exact .dropSecond hid
  next hid hid' =>
  rw [Bool.not_eq_true] at hid hid'
  cases hm : ownMatrix? first with
  | none =>
    rw [hm] at h
    exact hrest hdims hid hid' (.inl hm) h
  | some m =>
  cases hn : ownMatrix? second with
  | none =>
    rw [hm, hn] at h
    exact hrest hdims hid hid' (.inr hn) h
  | some n =>
    rw [hm, hn] at h
    obtain ⟨p, pool₂, hlift, h⟩ := stateBind_eq_ok h
    obtain ⟨-, rfl⟩ := eq_ok_of_lift hlift
    exact .product hm hn h

/-- Pass-throughs of the same components are merged when their inner transforms meet. -/
theorem lastStep_passThrough {leading trailing : Nat} {a b : Transform α}
    (hdims : a.targetDim = b.sourceDim) :
    f.lastStep (.passThrough leading a trailing) (.passThrough leading b trailing) =
      f.concatenate a b >>= fun inner => f.passThrough leading inner trailing := by
  unfold lastStep
  exact if_pos (by simp only [beq_self_eq_true, Bool.true_and, hdims])

theorem concatenation_of_plain (h : f.concatenate first second pool = (.ok u, pool'))
    (hpass : ∀ leading a b trailing, ¬(first = .passThrough leading a trailing ∧
      second = .passThrough leading b trailing)) : Concatenation f first second pool u pool' := by
  rw [concatenate_eq] at h
  refine concatenation_of_leadingSteps h fun hdims hid hid' hown hrest => ?_
  obtain ⟨leading, a, b, trailing, ha, hb, -⟩ | hlast := lastStep_cases f first second
  · exact absurd ⟨ha, hb⟩ (hpass leading a b trailing)
  · rw [hlast] at hrest
    exact .join ⟨hid, hid', hown, hpass⟩ hdims hrest

/-- A concatenation that succeeds has done one of these things. -/
theorem concatenation_of_concatenate (h : f.concatenate first second pool = (.ok u, pool')) :
    Concatenation f first second pool u pool' := by
  induction first generalizing second pool u pool' with
  | passThrough leading a trailing ih =>
    by_cases hpass : ∃ b, second = .passThrough leading b trailing
    · obtain ⟨b, rfl⟩ := hpass
      rw [concatenate_eq] at h
      refine concatenation_of_leadingSteps h fun hdims _ _ _ hrest => ?_
      simp only [targetDim, sourceDim, Nat.add_right_cancel_iff, Nat.add_left_cancel_iff] at hdims
      rw [lastStep_passThrough hdims] at hrest
      obtain ⟨inner, pool₁, hinner, hrest⟩ := stateBind_eq_ok hrest
      exact .merge (ih hinner) hrest
    · -- Nothing is merged with a transform that is no pass-through of the same counts.
      refine concatenation_of_plain h ?_
      rintro _ _ b _ ⟨⟨⟩, hb⟩
      exact hpass ⟨b, hb⟩
  | _ =>
    refine concatenation_of_plain h ?_
    rintro _ _ _ _ ⟨⟨⟩, -⟩

/-! ## Results -/

theorem size_of_pooled (h : f.pooled t pool = (.ok u, pool')) : u.size = t.size := by
  obtain ⟨member, -, -, hsame, hpooled⟩ | hpooled | hpooled := pooled_cases f t pool
  · cases hpooled.symm.trans h
    exact size_eq_of_same hsame
  · cases hpooled.symm.trans h
    rfl
  · cases hpooled.symm.trans h
    rfl

/-- A pass-through of no components is its inner transform, any other one is pooled. -/
theorem passThrough_cases {leading trailing : Nat} {inner : Transform α}
    (h : f.passThrough leading inner trailing pool = (.ok u, pool')) :
    leading + trailing = 0 ∧ u = inner ∨ 0 < leading + trailing ∧
      f.pooled (.passThrough leading inner trailing) pool = (.ok u, pool') := by
  unfold Builder.passThrough at h
  split at h
  · next hnothing =>
    simp only [Bool.and_eq_true, beq_iff_eq] at hnothing
    cases h
    exact .inl ⟨by omega, rfl⟩
  · next hcopies =>
    simp only [Bool.and_eq_true, beq_iff_eq] at hcopies
    exact .inr ⟨by omega, h⟩

theorem size_of_passThrough {leading trailing : Nat} {inner : Transform α}
    (h : f.passThrough leading inner trailing pool = (.ok u, pool')) : u.size ≤ inner.size + 1 := by
  obtain ⟨-, rfl⟩ | ⟨-, hpooled⟩ := passThrough_cases h
  · exact Nat.le_succ _
  · exact (size_of_pooled hpooled).le

theorem size_of_product (hf : f.Faithful ops) {m : DenseMatrix α}
    (h : f.ofMatrix m pool = (.ok u, pool')) : u.size = 1 := by
  obtain ⟨t, pool₁, hlift, hpooled⟩ := stateBind_eq_ok h
  obtain ⟨ht, rfl⟩ := eq_ok_of_lift hlift
  rw [rounded_eq hf] at hpooled
  rw [size_of_pooled hpooled, size_of_ofMatrix ht]

/-- Nothing that the builder does makes two transforms larger. -/
theorem Concatenation.size_le (hf : f.Faithful ops)
    (h : Concatenation f first second pool u pool') :
    u.size ≤ first.size + second.size := by
  induction h with
  | dropFirst _ => exact Nat.le_add_left _ _
  | dropSecond _ => exact Nat.le_add_right _ _
  -- A product is a single matrix, no larger than either factor.
  | @product first second _ _ _ _ _ _ _ _ hu =>
    have hfirst := first.size_pos
    have hsecond := second.size_pos
    rw [size_of_product hf hu]
    omega
  -- Merged pass-throughs share one level, and their inner transforms do not get larger together.
  | merge _ hu ih =>
    have hu := size_of_passThrough hu
    simp only [size]
    omega
  | join _ _ hu => exact (size_of_pooled hu).le

/-- What is not kept gets smaller. -/
theorem reduces_concatenate [Scalar.Discrete α] (hf : f.Faithful ops) (hfirst : first.Sound ops)
    (hsecond : second.Sound ops) (hpool : Pool.Sound ops pool)
    (h : f.concatenate first second pool = (.ok u, pool')) :
    u.Reduces (Joins first second) (.concatenated first second) := by
  have hpos := first.size_pos
  have hpos' := second.size_pos
  -- Every step but the last one contradicts that the two are kept side by side.
  cases concatenation_of_concatenate h with
  | dropFirst hid =>
    refine .of_lt (fun hjoins => ?_) (by rw [size]; omega)
    rw [hjoins.1] at hid
    cases hid
  | dropSecond hid =>
    refine .of_lt (fun hjoins => ?_) (by rw [size]; omega)
    rw [hjoins.2.1] at hid
    cases hid
  | product hm hn hu =>
    refine .of_lt (fun hjoins => ?_) (by rw [size, size_of_product hf hu]; omega)
    rcases hjoins.2.2.1 with hnone | hnone
    · rw [hnone] at hm
      cases hm
    · rw [hnone] at hn
      cases hn
  | merge hinner hu =>
    have hinner := hinner.size_le hf
    have hu := size_of_passThrough hu
    refine .of_lt (fun hjoins => hjoins.2.2.2 _ _ _ _ ⟨rfl, rfl⟩) ?_
    simp only [size]
    omega
  -- They are kept, up to the member that the pool has for them.
  | join hjoins hdims hu =>
    obtain ⟨v, rest, hv, hforget, -⟩ :=
      restores_pooled hf hpool (t := .concatenated first second) ⟨hfirst, hsecond, hdims⟩
    cases hv.symm.trans hu
    exact (Reduces.of_forget hforget).congr (iff_of_true trivial hjoins)

end Builder

end CoordTransform
