import CoordTransform.Proofs.Builder.Pool
import CoordTransform.Proofs.Element.Productions

/-!
# The Pools of an Interpreter

An interpreter goes on with the pool that earlier texts have left, rejected texts included, and
its builder may have been asked for transforms in between. What the builder keeps and inverses
keep, too, is kept by every production, hence by every text, and so by every run. All pools that an
interpreter comes to are sound, when the methods of its registry make sound transforms.
-/

namespace CoordTransform.Interpreter

variable {α : Type}

section

variable [Scalar α] {P : Transform α → Prop} {ops : Operation α → Prop} {i : Interpreter α}
  {β : Type}

/-- A property of transforms that survives each step of an interpreter. -/
structure Closed (i : Interpreter α) (P : Transform α → Prop) : Prop where
  builder : i.builder.Closed P
  create : ∀ {name method ps t}, i.builder.registry.get? name = some method →
    method.create ps = .ok t → P t
  inverse : ∀ {t u}, P t → t.inverse = .ok u → P u
  passThrough : ∀ {e : Element α} {leading t trailing}, i.counts e = .ok (leading, trailing) →
    P t → P (.passThrough leading t trailing)

theorem closed_sound (hregistry : i.builder.registry.Sound ops) : i.Closed (·.Sound ops) where
  builder := Builder.closed_sound i.builder ops
  create := fun hmethod ht => hregistry hmethod ht
  inverse ht hu := (Transform.inverseOf_of_inverse hu).sound ht
  passThrough _ ht := ht

/-! ## Steps -/

omit [Scalar α] in
theorem keeps_ofBuild {x : Build α β} {post : β → Prop} (hx : Keeps P x post) :
    Keeps P (ofBuild x) post := by
  intro pool result pool' hpool h
  unfold ofBuild at h
  -- An error of the builder is wrapped, which leaves the pool it has come to alone.
  cases hbuild : x pool with
  | mk made pool₁ =>
    obtain ⟨hpool₁, hpost⟩ := hx hpool hbuild
    rw [hbuild] at h
    cases made with
    | error e =>
      cases h
      exact ⟨hpool₁, fun b hb => nomatch hb⟩
    | ok b =>
      cases h
      exact ⟨hpool₁, fun c hc => by cases hc; exact hpost b rfl⟩

omit [Scalar α] in
theorem keeps_requireTransform {parent child : Element α} {r : Option (Transform α)}
    (hr : ∀ t, r = some t → P t) : Keeps P (requireTransform parent child r) P := by
  cases r with
  | none => exact .throw _
  | some t => exact .pure (hr t rfl)

theorem keeps_inverse (hi : i.Closed P) {t : Transform α} (ht : P t) : Keeps P (inverse t) P :=
  Keeps.lift fun _ hu => hi.inverse ht (mapError_eq_ok.1 hu)

theorem keeps_operation (hi : i.Closed P) (e : Element α) : Keeps P (i.operation e) P :=
  Keeps.lift_bind fun _ _ => Keeps.lift_bind fun _ _ =>
    keeps_ofBuild (Builder.keeps_create hi.builder fun _ _ => hi.create)

/-! ## Productions -/

/-- Steps behind a transform, when each of them keeps the property. -/
theorem keeps_concatenateAll (hi : i.Closed P) {parent : Element α} {cs : List (Element α)}
    (hsteps : ∀ c ∈ cs, Keeps P (i.transformOf c) fun r => ∀ t, r = some t → P t)
    {first : Transform α} (hfirst : P first) : Keeps P (i.concatenateAll parent first cs) P := by
  induction cs generalizing first with
  | nil =>
    rw [concatenateAll]
    exact .pure hfirst
  | cons c cs ih =>
    rw [concatenateAll]
    refine Keeps.bind (hsteps c List.mem_cons_self) fun r hr => ?_
    refine Keeps.bind (keeps_requireTransform hr) fun second hsecond => ?_
    refine Keeps.bind (keeps_ofBuild (Builder.keeps_concatenate hi.builder hfirst hsecond)) ?_
    exact fun both hboth => ih (fun c' hc' => hsteps c' (List.mem_cons_of_mem c hc')) hboth

/-- An element keeps what is closed, whatever becomes of it. -/
theorem keeps_transformOf (hi : i.Closed P) (e : Element α) :
    Keeps P (i.transformOf e) fun r => ∀ t, r = some t → P t := by
  induction e using Element.childInduction with
  | _ e ih =>
  obtain ⟨keyword, offset, literals, children⟩ := e
  -- Every production ends by wrapping the transform it has made.
  have hsome : ∀ {x : Interpretation α (Transform α)}, Keeps P x P →
      Keeps P (x >>= fun t => pure (some t)) fun r => ∀ t, r = some t → P t :=
    fun hx => hx.bind fun t ht => .pure fun u hu => Option.some.inj hu ▸ ht
  rw [transformOf.eq_def]
  dsimp only
  split
  · exact hsome (keeps_operation hi _)
  split
  · split
    · exact .throw _
    · refine Keeps.bind (ih _ List.mem_cons_self) fun r hr => ?_
      refine Keeps.bind (keeps_requireTransform hr) fun first hfirst => hsome ?_
      exact keeps_concatenateAll hi (fun c hc => ih c (List.mem_cons_of_mem _ hc)) hfirst
  split
  · split
    · refine Keeps.bind (ih _ List.mem_cons_self) fun r hr => ?_
      exact Keeps.bind (keeps_requireTransform hr) fun t ht => hsome (keeps_inverse hi ht)
    · exact .throw _
  split
  · refine Keeps.lift_bind fun counts hcounts => ?_
    obtain ⟨leading, trailing⟩ := counts
    dsimp only
    split
    · refine Keeps.bind (ih _ List.mem_cons_self) fun r hr => ?_
      refine Keeps.bind (keeps_requireTransform hr) fun t ht => hsome ?_
      exact keeps_ofBuild (Builder.keeps_passThrough ht (hi.passThrough hcounts ht))
    · exact .throw _
  · refine .pure fun t ht => ?_
    cases ht

end

variable [Numeral α] {P : Transform α → Prop} {ops : Operation α → Prop} {i : Interpreter α}
  {pool : Pool α}

theorem keeps_parse (hi : i.Closed P) (text : String) : Keeps P (i.parse text) P := by
  refine Keeps.lift_bind fun e _ => Keeps.bind (keeps_transformOf hi e) fun r hr => ?_
  cases r with
  | none => exact .throw _
  | some t => exact .pure (hr t rfl)

/-! ## Runs -/

/-- The pools that an interpreter comes to, one text or one request to its builder after the other.
Requests are about sound transforms, from wherever they come. -/
inductive Reaches (ops : Operation α → Prop) (i : Interpreter α) : Pool α → Prop where
  | start : Reaches ops i []
  | parse {pool : Pool α} (text : String) : Reaches ops i pool →
      Reaches ops i (i.parse text pool).2
  | create {pool : Pool α} (name : String) (ps : Parameters α) : Reaches ops i pool →
      Reaches ops i (i.builder.create name ps pool).2
  | ofMatrix {pool : Pool α} (m : DenseMatrix α) : Reaches ops i pool →
      Reaches ops i (i.builder.ofMatrix m pool).2
  | passThrough {pool : Pool α} {t : Transform α} (leading trailing : Nat) : t.Sound ops →
      Reaches ops i pool → Reaches ops i (i.builder.passThrough leading t trailing pool).2
  | concatenate {pool : Pool α} {first second : Transform α} : first.Sound ops →
      second.Sound ops → Reaches ops i pool →
      Reaches ops i (i.builder.concatenate first second pool).2

/-- Every pool that an interpreter comes to is sound. -/
theorem Reaches.sound (hregistry : i.builder.registry.Sound ops) (h : Reaches ops i pool) :
    Pool.Sound ops pool := by
  -- The induction is on the requests; a failed one may have pooled something as well.
  induction h with
  | start => exact Pool.sound_nil ops
  | parse text _ ih => exact (keeps_parse (closed_sound hregistry) text ih rfl).1
  | create name ps _ ih =>
    exact (Builder.keeps_create (Builder.closed_sound i.builder ops)
      (fun _ _ hmethod ht => hregistry hmethod ht) ih rfl).1
  | ofMatrix m _ ih =>
    exact (Builder.keeps_ofMatrix (Builder.closed_sound i.builder ops)
      (fun _ ht => .ofMatrix ht) ih rfl).1
  | passThrough leading trailing ht _ ih => exact (Builder.keeps_passThrough ht ht ih rfl).1
  | concatenate hfirst hsecond _ ih =>
    exact (Builder.keeps_concatenate (Builder.closed_sound i.builder ops) hfirst hsecond ih rfl).1

end CoordTransform.Interpreter
