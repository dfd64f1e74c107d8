import CoordTransform.Proofs.Element.RoundTrip

/-!
# Similar Elements are Interpreted Alike

Offsets are used in messages only. When the interpreter succeeds on an element, it gives the same
transform and the same pool on every similar element.
-/

namespace CoordTransform

variable {α : Type} [Scalar α]

namespace Element

variable {e e' : Element α} {cs cs' : List (Element α)}

/-! ## Literals and children -/

omit [Scalar α] in
theorem Similar.literals_eq (h : e.Similar e') : e'.literals = e.literals := by
  cases h
  rfl

omit [Scalar α] in
theorem Similar.children_similar (h : e.Similar e') :
    List.Forall₂ Similar e.children e'.children := by
  cases h
  assumption

omit [Scalar α] in
theorem Similar.is_eq (h : e.Similar e') (k : String) : e'.is k = e.is k := by
  cases h
  rfl

omit [Scalar α] in
theorem Similar.literal {index : Nat} {l : Literal α} (h : e.Similar e')
    (hl : e.literal index = .ok l) : e'.literal index = .ok l := by
  unfold Element.literal at hl ⊢
  rw [h.literals_eq]
  cases hget : e.literals[index]? with
  | none => rw [hget] at hl; cases hl
  | some l' => rw [hget] at hl; exact hl

omit [Scalar α] in
theorem Similar.quotedText {index : Nat} {s : String} (h : e.Similar e')
    (hs : e.quotedText index = .ok s) : e'.quotedText index = .ok s := by
  obtain ⟨l, hl, htext⟩ := bind_eq_ok.1 hs
  refine bind_eq_ok.2 ⟨l, h.literal hl, ?_⟩
  cases l with
  | text s' => exact htext
  | _ => cases htext

omit [Scalar α] in
theorem Similar.number {index : Nat} {x : α} (h : e.Similar e')
    (hx : e.number index = .ok x) : e'.number index = .ok x := by
  obtain ⟨l, hl, hnumber⟩ := bind_eq_ok.1 hx
  refine bind_eq_ok.2 ⟨l, h.literal hl, ?_⟩
  cases l with
  | number x' => exact hnumber
  | _ => cases hnumber

theorem natural_eq_ok_iff {index n : Nat} : e.natural index = .ok n ↔
    ∃ x, e.number index = .ok x ∧ Scalar.toNat? x = some n ∧ n ≤ largestCount := by
  unfold natural
  rw [bind_eq_ok]
  constructor
  · intro h
    rcases h with ⟨x, hx, h⟩
    -- Only a whole number that is not too large is a count.
    cases hnat : Scalar.toNat? x with
    | none =>
      rw [hnat] at h
      cases h
    | some k =>
      rw [hnat] at h
      dsimp only at h
      split at h
      · next hle =>
        cases h
        exact ⟨x, hx, hnat, hle⟩
      · cases h
  · intro h
    rcases h with ⟨x, hx, hnat, hle⟩
    refine ⟨x, hx, ?_⟩
    rw [hnat]
    exact if_pos hle

theorem Similar.natural {index n : Nat} (h : e.Similar e')
    (hn : e.natural index = .ok n) : e'.natural index = .ok n := by
  obtain ⟨x, hx, hrest⟩ := natural_eq_ok_iff.1 hn
  exact natural_eq_ok_iff.2 ⟨x, h.number hx, hrest⟩

omit [Scalar α] in
theorem filter_similar (h : List.Forall₂ Similar cs cs') (k : String) :
    List.Forall₂ Similar (cs.filter (·.is k)) (cs'.filter (·.is k)) := by
  induction h with
  | nil => exact .nil
  | @cons c c' cs cs' hc _ ih =>
    rw [List.filter_cons, List.filter_cons, hc.is_eq]
    split
    · exact .cons hc ih
    · exact ih

omit [Scalar α] in
theorem similar_singleton {c : Element α} (h : List.Forall₂ Similar [c] cs') :
    ∃ c', c.Similar c' ∧ cs' = [c'] := by
  cases h with
  | cons hc hrest =>
    cases hrest
    exact ⟨_, hc, rfl⟩

end Element

namespace Interpreter

open Element

variable {i : Interpreter α} {e e' : Element α} {cs cs' : List (Element α)}

/-! ## Parameters and counts -/

omit [Scalar α] in
theorem parameter?_similar {r : Option (String × ParameterValue α)} (h : e.Similar e')
    (hr : parameter? e = .ok r) : parameter? e' = .ok r := by
  unfold parameter? at hr ⊢
  rw [h.literals_eq]
  split at hr
  · obtain ⟨name, hname, hvalue⟩ := bind_eq_ok.1 hr
    exact bind_eq_ok.2 ⟨name, h.quotedText hname, hvalue⟩
  · exact hr

omit [Scalar α] in
theorem mapM_parameter?_similar (h : List.Forall₂ Similar cs cs') :
    ∀ {rs}, cs.mapM parameter? = .ok rs → cs'.mapM parameter? = .ok rs := by
  induction h with
  | nil => exact id
  | cons hc _ ih =>
    intro rs hrs
    rw [List.mapM_cons] at hrs ⊢
    obtain ⟨r, hr, hrest⟩ := bind_eq_ok.1 hrs
    obtain ⟨rs', hrs', hpure⟩ := bind_eq_ok.1 hrest
    exact bind_eq_ok.2 ⟨r, parameter?_similar hc hr, bind_eq_ok.2 ⟨rs', ih hrs', hpure⟩⟩

omit [Scalar α] in
theorem parameters_similar {ps : Parameters α} (h : e.Similar e')
    (hps : parameters e = .ok ps) : parameters e' = .ok ps := by
  obtain ⟨rs, hrs, hpure⟩ := bind_eq_ok.1 hps
  exact bind_eq_ok.2
    ⟨rs, mapM_parameter?_similar (filter_similar h.children_similar _) hrs, hpure⟩

theorem counts_similar {counts : Nat × Nat} (h : e.Similar e')
    (hcounts : i.counts e = .ok counts) : i.counts e' = .ok counts := by
  obtain ⟨leading, trailing⟩ := counts
  obtain ⟨hleading, htrailing⟩ := counts_eq_ok_iff.1 hcounts
  rw [counts_eq_ok_iff, h.literals_eq]
  exact ⟨h.natural hleading, htrailing.imp_right fun hn => ⟨hn.1, h.natural hn.2⟩⟩

/-! ## Transforms -/

theorem concatenateAll_similar (h : List.Forall₂ Similar cs cs')
    (hsteps : ∀ c ∈ cs, ∀ {c'}, c.Similar c' → ∀ {pool t pool'},
      i.transformOf c pool = (.ok (some t), pool') →
      i.transformOf c' pool = (.ok (some t), pool'))
    {parent parent' : Element α} : ∀ {first pool t pool'},
      i.concatenateAll parent first cs pool = (.ok t, pool') →
      i.concatenateAll parent' first cs' pool = (.ok t, pool') := by
  induction h with
  | nil => exact id
  | @cons c c' cs cs' hc _ ih =>
    intro first pool t pool' hall
    -- The parent occurs in errors only, so another parent makes no difference.
    obtain ⟨second, pool₁, both, pool₂, hsecond, hboth, hrest⟩ :=
      concatenateAll_cons_eq_ok_iff.1 hall
    exact concatenateAll_cons_eq_ok_iff.2 ⟨second, pool₁, both, pool₂,
      hsteps c List.mem_cons_self hc hsecond, hboth,
      ih (fun d hd => hsteps d (List.mem_cons_of_mem c hd)) hrest⟩

/-- The interpreter does not depend on offsets. -/
theorem transformOf_similar (e : Element α) : ∀ {e'}, e.Similar e' → ∀ {pool t pool'},
    i.transformOf e pool = (.ok (some t), pool') →
    i.transformOf e' pool = (.ok (some t), pool') := by
  induction e using Element.childInduction with
  | _ e ih =>
  intro e' h pool t pool' ht
  have hchildren := h.children_similar
  apply transformOf_eq_ok_iff.2
  -- A production reads the keyword, the literals and the children, and never the offset.
  cases transformOf_eq_ok_iff.1 ht with
  | operation hkeyword hoperation =>
    obtain ⟨name, ps, hname, hps, hcreate⟩ := operation_eq_ok_iff.1 hoperation
    exact .operation (by rwa [h.is_eq]) (operation_eq_ok_iff.2
      ⟨name, ps, h.quotedText hname, parameters_similar h hps, hcreate⟩)
  | @concatenation c cs first pool₁ hkeyword heq hc hall =>
    rw [heq] at hchildren ih
    cases hcs' : e'.children with
    | nil => rw [hcs'] at hchildren; cases hchildren
    | cons c' cs' =>
      rw [hcs'] at hchildren
      cases hchildren with
      | cons hfirst hrest =>
        exact .concatenation (by rwa [h.is_eq]) hcs' (ih c List.mem_cons_self hfirst hc)
          (concatenateAll_similar hrest (fun d hd => ih d (List.mem_cons_of_mem c hd)) hall)
  | @inverse c u hkeyword heq hc hu =>
    rw [heq] at hchildren ih
    obtain ⟨c', hc', hcs'⟩ := similar_singleton hchildren
    exact .inverse (by rwa [h.is_eq]) hcs' (ih c List.mem_cons_self hc' hc) hu
  | @passThrough leading trailing c u pool₁ hkeyword hcounts heq hc hu =>
    rw [heq] at hchildren ih
    obtain ⟨c', hc', hcs'⟩ := similar_singleton hchildren
    exact .passThrough (by rwa [h.is_eq]) (counts_similar h hcounts) hcs'
      (ih c List.mem_cons_self hc' hc) hu

end Interpreter

end CoordTransform
