import CoordTransform.Element.ToTransform
import CoordTransform.Proofs.Computation

/-!
# The Productions of the Interpreter

When the interpreter succeeds on an element, it has done so by exactly one of its four
productions. `transformOf_eq_ok_iff` says what each of them requires; both the soundness of the
interpreter and the interpretation of written transforms start from it.
-/

namespace CoordTransform

variable {α : Type}

/-! ## Elements -/

/-- A property that passes from the children to their parent holds of every element. -/
theorem Element.childInduction {P : Element α → Prop}
    (h : ∀ e : Element α, (∀ c ∈ e.children, P c) → P e) : ∀ e, P e
  | .node keyword offset literals children =>
    h (.node keyword offset literals children) fun c hc =>
      have : sizeOf c < sizeOf children := List.sizeOf_lt_of_mem hc
      Element.childInduction h c
  termination_by e => sizeOf e
  decreasing_by
    simp only [Element.node.sizeOf_spec]
    omega

/-- An element has only one keyword. -/
theorem Element.not_is {e : Element α} {k k' : String} (h : e.is k = true)
    (hk : Text.alike k k' = false) : ¬e.is k' = true := by
  rw [Element.is, Text.alike_iff] at h
  rw [Element.is, Text.alike, h, Bool.not_eq_true]
  exact hk

variable [Scalar α]

namespace Interpreter

/-! ## Steps -/

section

variable {β : Type} {pool pool' : Pool α}

omit [Scalar α] in
theorem ofBuild_eq_ok_iff {b : Build α β} {x : β} :
    ofBuild b pool = (.ok x, pool') ↔ b pool = (.ok x, pool') := by
  unfold ofBuild
  cases b pool with
  | mk result rest =>
    cases result with
    | error e => exact ⟨fun h => (nomatch h), fun h => (nomatch h)⟩
    | ok y => exact ⟨fun h => by cases h; rfl, fun h => by cases h; rfl⟩

omit [Scalar α] in
theorem ofExcept_eq_ok_iff {r : Except (ElementError α) β} {x : β} :
    ofExcept r pool = (.ok x, pool') ↔ r = .ok x ∧ pool = pool' := by
  cases r with
  | error e => exact ⟨fun h => (nomatch h), fun h => (nomatch h.1)⟩
  | ok y =>
    exact ⟨fun h => by cases h; exact ⟨rfl, rfl⟩, fun h => by cases h.1; cases h.2; rfl⟩

omit [Scalar α] in
theorem requireTransform_eq_ok_iff {parent child : Element α} {r : Option (Transform α)}
    {t : Transform α} :
    requireTransform parent child r pool = (.ok t, pool') ↔ r = some t ∧ pool = pool' := by
  cases r with
  | none => exact ⟨fun h => (nomatch h), fun h => (nomatch h.1)⟩
  | some u =>
    exact ⟨fun h => by cases h; exact ⟨rfl, rfl⟩, fun h => by cases h.1; cases h.2; rfl⟩

theorem inverse_eq_ok_iff {t u : Transform α} :
    inverse t pool = (.ok u, pool') ↔ t.inverse = .ok u ∧ pool = pool' := by
  rw [inverse, ofExcept_eq_ok_iff, mapError_eq_ok]

end

variable {i : Interpreter α} {e c : Element α} {cs : List (Element α)} {pool pool' : Pool α}
  {t first : Transform α}

/-- A method is applied when its name and parameters can be read. -/
theorem operation_eq_ok_iff : i.operation e pool = (.ok t, pool') ↔
    ∃ name ps, e.quotedText 0 = .ok name ∧ parameters e = .ok ps ∧
      i.builder.create name ps pool = (.ok t, pool') := by
  simp only [operation, stateBind_eq_ok_iff, ofExcept_eq_ok_iff, ofBuild_eq_ok_iff]
  constructor
  · intro h
    rcases h with ⟨name, _, ⟨hname, rfl⟩, ps, _, ⟨hps, rfl⟩, hcreate⟩
    exact ⟨name, ps, hname, hps, hcreate⟩
  · intro h
    rcases h with ⟨name, ps, hname, hps, hcreate⟩
    exact ⟨name, pool, ⟨hname, rfl⟩, ps, pool, ⟨hps, rfl⟩, hcreate⟩

/-- A trailing count is written or implied. -/
theorem counts_eq_ok_iff {leading trailing : Nat} :
    i.counts e = .ok (leading, trailing) ↔ e.natural 0 = .ok leading ∧
      (e.literals.length = 1 ∧ trailing = i.impliedTrailing ∨
        e.literals.length = 2 ∧ e.natural 1 = .ok trailing) := by
  unfold counts
  rw [bind_eq_ok]
  constructor
  · intro h
    rcases h with ⟨k, hk, h⟩
    -- The number of literals tells which of the two cases it is.
    split at h
    · next hlength =>
      cases h
      exact ⟨hk, .inl ⟨hlength, rfl⟩⟩
    · next hlength =>
      obtain ⟨n, hn, hcounts⟩ := bind_eq_ok.1 h
      cases hcounts
      exact ⟨hk, .inr ⟨hlength, hn⟩⟩
    · cases h
  · intro h
    rcases h with ⟨hk, ⟨hlength, rfl⟩ | ⟨hlength, hn⟩⟩
    · refine ⟨leading, hk, ?_⟩
      rw [hlength]
      rfl
    · refine ⟨leading, hk, ?_⟩
      rw [hlength]
      exact bind_eq_ok.2 ⟨trailing, hn, rfl⟩

/-- The steps behind the first one are concatenated one after the other. -/
theorem concatenateAll_cons_eq_ok_iff {parent : Element α} :
    i.concatenateAll parent first (c :: cs) pool = (.ok t, pool') ↔
      ∃ second pool₁ both pool₂, i.transformOf c pool = (.ok (some second), pool₁) ∧
        i.builder.concatenate first second pool₁ = (.ok both, pool₂) ∧
        i.concatenateAll parent both cs pool₂ = (.ok t, pool') := by
  simp only [concatenateAll, stateBind_eq_ok_iff, requireTransform_eq_ok_iff, ofBuild_eq_ok_iff]
  constructor
  · intro h
    rcases h with ⟨_, pool₁, hsecond, second, _, ⟨rfl, rfl⟩, both, pool₂, hboth, hrest⟩
    exact ⟨second, pool₁, both, pool₂, hsecond, hboth, hrest⟩
  · intro h
    rcases h with ⟨second, pool₁, both, pool₂, hsecond, hboth, hrest⟩
    exact ⟨_, pool₁, hsecond, second, pool₁, ⟨rfl, rfl⟩, both, pool₂, hboth, hrest⟩

/-! ## Productions -/

/-- How an element becomes a transform, while one pool becomes another. -/
inductive Production (i : Interpreter α) (e : Element α) (pool : Pool α) (t : Transform α)
    (pool' : Pool α) : Prop where
  | operation : e.is Element.operationKeyword = true → i.operation e pool = (.ok t, pool') →
      Production i e pool t pool'
  | concatenation {c : Element α} {cs : List (Element α)} {first : Transform α} {pool₁ : Pool α} :
      e.is Element.concatenationKeyword = true → e.children = c :: cs →
      i.transformOf c pool = (.ok (some first), pool₁) →
      i.concatenateAll e first cs pool₁ = (.ok t, pool') → Production i e pool t pool'
  | inverse {c : Element α} {u : Transform α} : e.is Element.inverseKeyword = true →
      e.children = [c] → i.transformOf c pool = (.ok (some u), pool') → u.inverse = .ok t →
      Production i e pool t pool'
  | passThrough {leading trailing : Nat} {c : Element α} {u : Transform α} {pool₁ : Pool α} :
      e.is Element.passThroughKeyword = true → i.counts e = .ok (leading, trailing) →
      e.children = [c] → i.transformOf c pool = (.ok (some u), pool₁) →
      i.builder.passThrough leading u trailing pool₁ = (.ok t, pool') →
      Production i e pool t pool'

theorem production_of_transformOf (h : i.transformOf e pool = (.ok (some t), pool')) :
    Production i e pool t pool' := by
  -- The keywords are tried one after the other; the last branch gives no transform at all.
  obtain ⟨keyword, offset, literals, children⟩ := e
  rw [transformOf.eq_def] at h
  dsimp only at h
  split at h
  · next hkeyword =>
    obtain ⟨u, pool₁, hu, ht⟩ := stateBind_eq_ok h
    obtain ⟨ht, rfl⟩ := statePure_eq_ok_iff.1 ht
    cases ht
    exact .operation hkeyword hu
  split at h
  · next hkeyword =>
    split at h
    · exact absurd h stateThrow_ne_ok
    · next c cs =>
      simp only [stateBind_eq_ok_iff, requireTransform_eq_ok_iff, statePure_eq_ok_iff,
        Option.some.injEq] at h
      obtain ⟨_, pool₁, hc, first, _, ⟨rfl, rfl⟩, u, _, hall, rfl, rfl⟩ := h
      exact .concatenation hkeyword rfl hc hall
  split at h
  · next hkeyword =>
    split at h
    · next c =>
      simp only [stateBind_eq_ok_iff, requireTransform_eq_ok_iff, statePure_eq_ok_iff,
        inverse_eq_ok_iff, Option.some.injEq] at h
      obtain ⟨_, pool₁, hc, u, _, ⟨rfl, rfl⟩, v, _, ⟨hv, rfl⟩, rfl, rfl⟩ := h
      exact .inverse hkeyword rfl hc hv
    · exact absurd h stateThrow_ne_ok
  split at h
  · next hkeyword =>
    obtain ⟨⟨leading, trailing⟩, pool₁, hread, hrest⟩ := stateBind_eq_ok h
    obtain ⟨hcounts, rfl⟩ := ofExcept_eq_ok_iff.1 hread
    dsimp only at hrest
    split at hrest
    · next c =>
      simp only [stateBind_eq_ok_iff, requireTransform_eq_ok_iff, statePure_eq_ok_iff,
        ofBuild_eq_ok_iff, Option.some.injEq] at hrest
      obtain ⟨_, pool₂, hc, u, _, ⟨rfl, rfl⟩, v, _, hv, rfl, rfl⟩ := hrest
      exact .passThrough hkeyword hcounts rfl hc hv
    · exact absurd hrest stateThrow_ne_ok
  · obtain ⟨hnone, -⟩ := statePure_eq_ok_iff.1 h
    cases hnone

theorem transformOf_of_production (h : Production i e pool t pool') :
    i.transformOf e pool = (.ok (some t), pool') := by
  obtain ⟨keyword, offset, literals, children⟩ := e
  rw [transformOf.eq_def]
  dsimp only
  -- An element has only one keyword, so the tests before the right one fail.
  cases h with
  | operation hkeyword hoperation =>
    rw [if_pos hkeyword]
    exact stateBind_of_ok hoperation
  | concatenation hkeyword hchildren hc hall =>
    rw [if_neg (Element.not_is hkeyword (by decide)), if_pos hkeyword]
    cases hchildren
    exact stateBind_eq_ok_iff.2 ⟨_, _, hc, stateBind_eq_ok_iff.2
      ⟨_, _, requireTransform_eq_ok_iff.2 ⟨rfl, rfl⟩, stateBind_of_ok hall⟩⟩
  | inverse hkeyword hchildren hc hu =>
    rw [if_neg (Element.not_is hkeyword (by decide)),
      if_neg (Element.not_is hkeyword (by decide)), if_pos hkeyword]
    cases hchildren
    exact stateBind_eq_ok_iff.2 ⟨_, _, hc, stateBind_eq_ok_iff.2
      ⟨_, _, requireTransform_eq_ok_iff.2 ⟨rfl, rfl⟩,
        stateBind_of_ok (inverse_eq_ok_iff.2 ⟨hu, rfl⟩)⟩⟩
  | passThrough hkeyword hcounts hchildren hc hu =>
    rw [if_neg (Element.not_is hkeyword (by decide)),
      if_neg (Element.not_is hkeyword (by decide)),
      if_neg (Element.not_is hkeyword (by decide)), if_pos hkeyword]
    cases hchildren
    exact stateBind_eq_ok_iff.2 ⟨_, _, ofExcept_eq_ok_iff.2 ⟨hcounts, rfl⟩,
      stateBind_eq_ok_iff.2 ⟨_, _, hc, stateBind_eq_ok_iff.2
        ⟨_, _, requireTransform_eq_ok_iff.2 ⟨rfl, rfl⟩,
          stateBind_of_ok (ofBuild_eq_ok_iff.2 hu)⟩⟩⟩

/-- The interpreter succeeds on an element exactly by one of the productions. -/
theorem transformOf_eq_ok_iff :
    i.transformOf e pool = (.ok (some t), pool') ↔ Production i e pool t pool' :=
  ⟨production_of_transformOf, transformOf_of_production⟩

end Interpreter

/-! ## Texts -/

/-- Reads all of the characters as one element. -/
def Element.readAll {α : Type} [Numeral α] (cs : List Char) :
    Except (ElementError α) (Element α) :=
  match readElement largestDepth (Cursor.mk cs 0).skipBlanks with
  | .error (offset, fault) => .error (.badSyntax offset fault)
  | .ok (e, last) =>
    let last := last.skipBlanks
    if last.rest.isEmpty then .ok e else .error (.badSyntax last.offset .trailing)

/-- A text counts by its characters only. -/
theorem Interpreter.parse_eq_readAll {α : Type} [Numeral α] (i : Interpreter α) (text : String) :
    i.parse text = (do
      let e ← ofExcept (Element.readAll text.toList)
      match ← i.transformOf e with
      | some t => return t
      | none => throw (.unexpectedKeyword e.keyword e.offset)) :=
  rfl

/-- A text is interpreted when it reads as an element that is. -/
theorem Interpreter.parse_eq_ok_iff {α : Type} [Numeral α] {i : Interpreter α} {text : String}
    {pool pool' : Pool α} {t : Transform α} : i.parse text pool = (.ok t, pool') ↔
      ∃ e, Element.parse text = .ok e ∧ i.transformOf e pool = (.ok (some t), pool') := by
  unfold parse
  simp only [stateBind_eq_ok_iff, ofExcept_eq_ok_iff]
  constructor
  · intro h
    rcases h with ⟨e, _, ⟨he, rfl⟩, r, pool₁, hr, ht⟩
    -- An element that is no production is not a transform.
    cases r with
    | none => exact absurd ht stateThrow_ne_ok
    | some u =>
      obtain ⟨rfl, rfl⟩ := statePure_eq_ok_iff.1 ht
      exact ⟨e, he, hr⟩
  · intro h
    rcases h with ⟨e, he, hr⟩
    exact ⟨e, pool, ⟨he, rfl⟩, some t, pool', hr, rfl⟩

end CoordTransform
