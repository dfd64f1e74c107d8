import Mathlib

/-!
# Computations that May Fail

What it takes for a sequence of two steps to succeed: for results that are a value or an error,
and for computations that also carry a state, which survives an error.
-/

namespace CoordTransform

variable {ε σ β γ : Type}

/-! ## Results -/

/-- Two steps succeed when the first gives a value on which the second succeeds. -/
theorem bind_eq_ok {x : Except ε β} {f : β → Except ε γ} {c : γ} :
    x >>= f = .ok c ↔ ∃ b, x = .ok b ∧ f b = .ok c := by
  cases x with
  | error e => simp [bind, Except.bind]
  | ok b => simp [bind, Except.bind]

theorem mapError_eq_ok {ε' : Type} {x : Except ε β} {f : ε → ε'} {b : β} :
    x.mapError f = .ok b ↔ x = .ok b := by
  cases x <;> simp [Except.mapError]

/-- Two steps fail when the first does, or the second on the value of the first. -/
theorem bind_eq_error {x : Except ε β} {f : β → Except ε γ} {e : ε} :
    x >>= f = .error e ↔ x = .error e ∨ ∃ b, x = .ok b ∧ f b = .error e := by
  cases x with
  | error e' => simp [bind, Except.bind]
  | ok b => simp [bind, Except.bind]

theorem mapError_eq_error {ε' : Type} {x : Except ε β} {f : ε → ε'} {e' : ε'} :
    x.mapError f = .error e' ↔ ∃ e, x = .error e ∧ f e = e' := by
  cases x <;> simp [Except.mapError]

/-- The same error, or values that are related. -/
inductive ResultRel (R : β → γ → Prop) : Except ε β → Except ε γ → Prop where
  | ok {b : β} {c : γ} : R b c → ResultRel R (.ok b) (.ok c)
  | error (e : ε) : ResultRel R (.error e) (.error e)

namespace ResultRel

variable {β' γ' ε' : Type} {R : β → γ → Prop} {S : β' → γ' → Prop} {x : Except ε β} {y : Except ε γ}

/-- Related values may be related in another way, by what is known of both results. -/
theorem mono {R' : β → γ → Prop} (h : ResultRel R x y)
    (hR : ∀ b c, x = .ok b → y = .ok c → R b c → R' b c) : ResultRel R' x y := by
  cases h with
  | ok hbc => exact .ok (hR _ _ rfl rfl hbc)
  | error e => exact .error e

theorem exists_of_ok {b : β} (h : ResultRel R x y) (hx : x = .ok b) : ∃ c, y = .ok c ∧ R b c := by
  subst hx
  cases h with
  | ok hbc => exact ⟨_, rfl, hbc⟩

theorem bind {f : β → Except ε β'} {g : γ → Except ε γ'} (h : ResultRel R x y)
    (hfg : ∀ b c, R b c → ResultRel S (f b) (g c)) : ResultRel S (x >>= f) (y >>= g) := by
  cases h with
  | ok hbc => exact hfg _ _ hbc
  | error e => exact .error e

theorem mapError (f : ε → ε') (h : ResultRel R x y) :
    ResultRel R (x.mapError f) (y.mapError f) := by
  cases h with
  | ok hbc => exact .ok hbc
  | error e => exact .error (f e)

/-- A result agrees with itself when its value does. -/
theorem refl {R : β → β → Prop} {x : Except ε β} (h : ∀ b, x = .ok b → R b b) :
    ResultRel R x x := by
  cases x with
  | ok b => exact .ok (h b rfl)
  | error e => exact .error e

end ResultRel

/-! ## Optional values -/

/-- Optional values that are related are followed by related ones. -/
theorem optionRel_bind {β' γ' : Type} {R : β → γ → Prop} {S : β' → γ' → Prop} {x : Option β}
    {y : Option γ} {f : β → Option β'} {g : γ → Option γ'} (h : Option.Rel R x y)
    (hfg : ∀ b c, R b c → Option.Rel S (f b) (g c)) : Option.Rel S (x >>= f) (y >>= g) := by
  cases h with
  | none => exact .none
  | some hbc => exact hfg _ _ hbc

/-! ## Computations with a state -/

theorem stateBind_of_ok {x : ExceptT ε (StateM σ) β} {f : β → ExceptT ε (StateM σ) γ} {s s' : σ}
    {b : β} (h : x s = (.ok b, s')) : (x >>= f) s = f b s' := by
  simp only [bind, ExceptT.bind, ExceptT.mk, StateT.bind, h]
  rfl

theorem stateBind_of_error {x : ExceptT ε (StateM σ) β} {f : β → ExceptT ε (StateM σ) γ}
    {s s' : σ} {e : ε} (h : x s = (.error e, s')) : (x >>= f) s = (.error e, s') := by
  simp only [bind, ExceptT.bind, ExceptT.mk, StateT.bind, h]
  rfl

/-- Two steps with a state succeed when the first hands a value and a state to the second. -/
theorem stateBind_eq_ok {x : ExceptT ε (StateM σ) β} {f : β → ExceptT ε (StateM σ) γ}
    {s s'' : σ} {c : γ} (h : (x >>= f) s = (.ok c, s'')) :
    ∃ b s', x s = (.ok b, s') ∧ f b s' = (.ok c, s'') := by
  cases hx : x s with
  | mk result s' =>
    cases result with
    | ok b => exact ⟨b, s', rfl, by rwa [stateBind_of_ok hx] at h⟩
    | error e =>
      rw [stateBind_of_error hx] at h
      cases h

theorem stateBind_eq_ok_iff {x : ExceptT ε (StateM σ) β} {f : β → ExceptT ε (StateM σ) γ}
    {s s'' : σ} {c : γ} : (x >>= f) s = (.ok c, s'') ↔
      ∃ b s', x s = (.ok b, s') ∧ f b s' = (.ok c, s'') :=
  ⟨stateBind_eq_ok, fun ⟨_, _, hx, hf⟩ => (stateBind_of_ok hx).trans hf⟩

/-- Two steps with a state end with the error of the first one or with the result of the
second. -/
theorem stateBind_cases {x : ExceptT ε (StateM σ) β} {f : β → ExceptT ε (StateM σ) γ}
    {s s'' : σ} {result : Except ε γ} (h : (x >>= f) s = (result, s'')) :
    (∃ e, x s = (.error e, s'') ∧ result = .error e) ∨
      ∃ b s', x s = (.ok b, s') ∧ f b s' = (result, s'') := by
  cases hx : x s with
  | mk first s' =>
    cases first with
    | ok b => exact .inr ⟨b, s', rfl, by rwa [stateBind_of_ok hx] at h⟩
    | error e =>
      rw [stateBind_of_error hx] at h
      cases h
      exact .inl ⟨e, rfl, rfl⟩

theorem statePure_eq_ok_iff {b c : β} {s s' : σ} :
    (pure b : ExceptT ε (StateM σ) β) s = (.ok c, s') ↔ b = c ∧ s = s' :=
  ⟨fun h => by cases h; exact ⟨rfl, rfl⟩, fun ⟨hb, hs⟩ => by rw [hb, hs]; rfl⟩

theorem stateThrow_ne_ok {e : ε} {c : β} {s s' : σ} :
    ¬(throw e : ExceptT ε (StateM σ) β) s = (.ok c, s') :=
  fun h => nomatch h

end CoordTransform
