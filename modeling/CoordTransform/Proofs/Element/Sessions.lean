import CoordTransform.Proofs.Builder.Unpooled
import CoordTransform.Proofs.Double
import CoordTransform.Proofs.Element.Meaning

/-!
# Sessions With and Without a Pool

An interpreter that goes on with the pool of earlier texts runs beside one that does not pool. On
every text the two fail with the same error or give transforms that are the same, in each of three
situations:

* computing an inverse twice gives the coefficients back, as in exact arithmetic;
* the text has no inverse in it, whatever was read before;
* in this text and in all texts before, inverses are taken last.

In general they do not. The inverse of an affine map remembers this map. Inside a pass-through it
comes into the pool with that memory, where it takes the place of an equal map without memory.
Later the inverse of the latter is asked for, and it is the remembered map instead of the computed
one; with rounding, these are different.
-/

namespace CoordTransform

variable {α : Type}

/-! ## Inverses in elements -/

/-- An element with no inverse in it. -/
inductive Element.InverseFree : Element α → Prop where
  | node {e : Element α} : e.is Element.inverseKeyword = false →
      (∀ c ∈ e.children, c.InverseFree) → InverseFree e

/-- An element whose inverses are inside of nothing but inverses. -/
inductive Element.InversesOutside : Element α → Prop where
  | free {e : Element α} : e.InverseFree → InversesOutside e
  | inverse {e : Element α} : e.is Element.inverseKeyword = true →
      (∀ c ∈ e.children, c.InversesOutside) → InversesOutside e

section

variable [Scalar α]

/-- The interpreter with the same options that does not pool. -/
def Interpreter.unpooled (i : Interpreter α) : Interpreter α :=
  { i with builder := i.builder.unpooled }

namespace Interpreter

variable {ops : Operation α → Prop} {steady : Prop} {i : Interpreter α} {e c : Element α}
  {β γ : Type}

/-! ## Steps -/

omit [Scalar α] in
theorem ofBuild_eq (b : Build α β) (pool : Pool α) :
    ofBuild b pool = ((b pool).1.mapError .transform, (b pool).2) := by
  unfold ofBuild
  cases b pool with
  | mk result pool' => cases result <;> rfl

theorem agrees_ofBuild {x : Build α β} {y : Build α γ} {R : β → γ → Prop}
    (h : Agrees ops steady x y R) : Agrees ops steady (ofBuild x) (ofBuild y) R := by
  intro pool hpool rest
  obtain ⟨result, result', pool', hx, hy, hpool', hresult⟩ := h hpool rest
  refine ⟨_, _, pool', ?_, ?_, hpool', hresult.mapError .transform⟩
  · rw [ofBuild_eq, hx]
  · rw [ofBuild_eq, hy]

theorem agrees_requireTransform {R : Transform α → Transform α → Prop} (parent child : Element α)
    {r r' : Option (Transform α)} (h : Option.Rel R r r') :
    Agrees ops steady (requireTransform parent child r) (requireTransform parent child r') R := by
  cases h with
  | none => exact .throw _
  | some h => exact .pure h

/-- Every production ends by wrapping the transform it has made. -/
theorem agrees_some {R : Transform α → Transform α → Prop} {x y : Interpretation α (Transform α)}
    (h : Agrees ops steady x y R) :
    Agrees ops steady (x >>= fun t => pure (some t)) (y >>= fun t => pure (some t))
      (Option.Rel R) :=
  h.bind fun _ _ htu => .pure (.some htu)

/-- A child and what is done with its transform. -/
theorem agrees_child {R : Transform α → Transform α → Prop} {S : β → γ → Prop} (parent : Element α)
    (hchild : Agrees ops steady (i.transformOf c) (i.unpooled.transformOf c) (Option.Rel R))
    {f : Transform α → Interpretation α β} {g : Transform α → Interpretation α γ}
    (hfg : ∀ t u, R t u → Agrees ops steady (f t) (g u) S) :
    Agrees ops steady (i.transformOf c >>= fun r => requireTransform parent c r >>= f)
      (i.unpooled.transformOf c >>= fun r => requireTransform parent c r >>= g) S :=
  hchild.bind fun _ _ hr => (agrees_requireTransform parent c hr).bind hfg

theorem agrees_inverse {R : Transform α → Transform α → Prop} {t u : Transform α}
    (h : ResultRel R t.inverse u.inverse) : Agrees ops steady (inverse t) (inverse u) R :=
  .lift (h.mapError _)

variable [Scalar.Discrete α] (hops : Transform.Determined ops)
  (hsound : i.builder.registry.Sound ops) (hconsistent : i.builder.registry.Consistent)
include hops

/-- Steps behind twins, when each of them gives twins. -/
theorem agrees_concatenateAll (parent : Element α) {cs : List (Element α)}
    (hsteps : ∀ c ∈ cs, Agrees ops steady (i.transformOf c) (i.unpooled.transformOf c)
      (Option.Rel (Twins ops steady)))
    {first first' : Transform α} (hfirst : Twins ops steady first first') :
    Agrees ops steady (i.concatenateAll parent first cs)
      (i.unpooled.concatenateAll parent first' cs) (Twins ops steady) := by
  induction cs generalizing first first' with
  | nil =>
    rw [concatenateAll, concatenateAll]
    exact .pure hfirst
  | cons c cs ih =>
    rw [concatenateAll, concatenateAll]
    refine agrees_child parent (hsteps c List.mem_cons_self) fun second second' hsecond => ?_
    refine Agrees.bind (agrees_ofBuild (Builder.agrees_concatenate hops hfirst hsecond)) ?_
    exact fun both both' hboth => ih (fun c' hc' => hsteps c' (List.mem_cons_of_mem c hc')) hboth

include hsound hconsistent

theorem agrees_operation (e : Element α) :
    Agrees ops steady (i.operation e) (i.unpooled.operation e) (Twins ops steady) :=
  Agrees.lift_bind fun name _ => Agrees.lift_bind fun ps _ =>
    agrees_ofBuild (Builder.agrees_create hops hsound (fun _ => hconsistent) name ps)

/-! ## Productions -/

/-- An element without inverses gives twins. With inverses, it does when these can be taken
back. -/
theorem agrees_transformOf (e : Element α)
    (he : e.InverseFree ∨ steady ∧ AffineCoefficients.Reversible α) :
    Agrees ops steady (i.transformOf e) (i.unpooled.transformOf e)
      (Option.Rel (Twins ops steady)) := by
  induction e using Element.childInduction with
  | _ e ih =>
  have hchild : ∀ c ∈ e.children, Agrees ops steady (i.transformOf c) (i.unpooled.transformOf c)
      (Option.Rel (Twins ops steady)) := by
    intro c hc
    refine ih c hc (he.imp_left fun hfree => ?_)
    cases hfree with
    | node _ hchildren => exact hchildren c hc
  obtain ⟨keyword, offset, literals, children⟩ := e
  rw [transformOf.eq_def, transformOf.eq_def]
  dsimp only
  -- The same branch is taken with and without a pool, since keyword and literals are the same.
  split
  · exact agrees_some (agrees_operation hops hsound hconsistent _)
  split
  · -- A concatenation: its first step, and then all others after it.
    split
    · exact .throw _
    · refine agrees_child _ (hchild _ List.mem_cons_self) fun first first' hfirst => ?_
      exact agrees_some (agrees_concatenateAll hops _
        (fun c hc => hchild c (List.mem_cons_of_mem _ hc)) hfirst)
  split
  · -- An inverse: there are none in the first case, and they can be taken back in the other one.
    next hkeyword =>
    split
    · refine agrees_child _ (hchild _ List.mem_cons_self) fun t u htu => agrees_some ?_
      obtain ⟨hother, -⟩ | ⟨hsteady, hreversible⟩ := he
      · rw [hkeyword] at hother
        cases hother
      · exact agrees_inverse (htu.inverse hreversible hsteady)
    · exact .throw _
  split
  · -- A pass-through: the counts do not depend on the pool.
    refine Agrees.lift_bind fun counts _ => ?_
    obtain ⟨leading, trailing⟩ := counts
    dsimp only
    split
    · refine agrees_child _ (hchild _ List.mem_cons_self) fun t u htu => agrees_some ?_
      exact agrees_ofBuild (Builder.agrees_passThrough hops leading htu trailing)
    · exact .throw _
  · exact .pure .none

/-- Inverses of inverses need not be twins, but they are alike once they are settled. -/
theorem agrees_transformOf_outside {e : Element α} (he : e.InversesOutside) :
    Agrees ops True (i.transformOf e) (i.unpooled.transformOf e)
      (Option.Rel fun t u => t.settle = u.settle) := by
  induction he with
  | @free e hfree =>
    refine (agrees_transformOf hops hsound hconsistent e (.inl hfree)).mono fun r r' hr => ?_
    cases hr with
    | none => exact .none
    | some htu => exact .some (htu.settle_eq trivial)
  | @inverse e hkeyword _ ih =>
    have hoperation : ¬e.is Element.operationKeyword = true :=
      Element.not_is hkeyword (by decide)
    have hconcatenation : ¬e.is Element.concatenationKeyword = true :=
      Element.not_is hkeyword (by decide)
    obtain ⟨keyword, offset, literals, children⟩ := e
    rw [transformOf.eq_def, transformOf.eq_def]
    -- What is below is alike once it is settled, and so are inverses of what is alike.
    simp only [if_neg hoperation, if_neg hconcatenation, if_pos hkeyword]
    split
    · refine agrees_child _ (ih _ List.mem_cons_self) fun t u htu => agrees_some ?_
      exact agrees_inverse (Transform.inverse_of_settle htu)
    · exact .throw _

end Interpreter

end

/-! ## Texts -/

namespace Interpreter

variable [Numeral α] {ops : Operation α → Prop} {steady : Prop} {i : Interpreter α}

/-- The pool that texts leave behind, one after the other. -/
def poolAfter (i : Interpreter α) (texts : List String) : Pool α :=
  texts.foldl (fun pool text => (i.parse text pool).2) []

theorem agrees_parse {R : Transform α → Transform α → Prop} {text : String}
    (h : ∀ e, Element.parse text = .ok e →
      Agrees ops steady (i.transformOf e) (i.unpooled.transformOf e) (Option.Rel R)) :
    Agrees ops steady (i.parse text) (i.unpooled.parse text) R := by
  refine Agrees.lift_bind fun e he => (h e he).bind fun r r' hr => ?_
  cases hr with
  | none => exact .throw _
  | some htu => exact .pure htu

/-- Texts that keep pools steady leave a steady pool behind. -/
theorem steady_poolAfter {texts : List String}
    (h : ∀ text ∈ texts, ∀ pool, Pool.Steady ops steady pool →
      Pool.Steady ops steady (i.parse text pool).2) : Pool.Steady ops steady (i.poolAfter texts) :=
  List.foldlRecOn (motive := Pool.Steady ops steady) texts _ (fun _ ht => nomatch ht)
    fun pool hpool text htext => h text htext pool hpool

/-- Whatever texts are read, all members of the pool are sound. -/
theorem sound_poolAfter (hsound : i.builder.registry.Sound ops) (texts : List String) :
    Pool.Steady ops False (i.poolAfter texts) := by
  refine steady_poolAfter fun text _ pool hpool t ht => ⟨?_, False.elim⟩
  exact (keeps_parse (closed_sound hsound) text (fun u hu => (hpool u hu).1) rfl).1 t ht

variable [Scalar.Discrete α]

/-- Pooling does not make a difference: the same error, or transforms with the same
representations of all numbers and the same texts. -/
theorem parse_unpooled (hops : Transform.Determined ops) (hsound : i.builder.registry.Sound ops)
    (hconsistent : i.builder.registry.Consistent) (before : List String) (text : String)
    (h : AffineCoefficients.Reversible α ∨
      (∀ e : Element α, Element.parse text = .ok e → e.InverseFree) ∨
      ∀ earlier ∈ text :: before, ∀ e : Element α, Element.parse earlier = .ok e →
        e.InversesOutside) :
    ResultRel
      (fun t u : Transform α => t.same u = true ∧ ∀ implied, t.text implied = u.text implied)
      (i.parse text (i.poolAfter before)).1
      (i.unpooled.parse text (i.unpooled.poolAfter before)).1 := by
  suffices hforget : ResultRel (fun t u : Transform α => t.forget = u.forget)
      (i.parse text (i.poolAfter before)).1
      (i.unpooled.parse text (i.unpooled.poolAfter before)).1 by
    refine hforget.mono fun t u _ _ htu => ⟨Transform.same_of_forget htu, fun implied => ?_⟩
    rw [Transform.text, Transform.toElement_eq_of_forget htu, Transform.text]
  rcases h with hreversible | hfree | houtside
  · -- All inverses can be taken back, in this text and in those before it.
    have hagrees : ∀ text, Agrees ops True (i.parse text) (i.unpooled.parse text)
        (Twins ops True) := fun text => agrees_parse fun e _ =>
      agrees_transformOf hops hsound hconsistent e (.inr ⟨trivial, hreversible⟩)
    have hpool : Pool.Steady ops True (i.poolAfter before) :=
      steady_poolAfter fun earlier _ _ => (hagrees earlier).steady_pool
    exact ((hagrees text).result hpool _).mono fun _ _ _ _ htu => htu.forget_eq
  · -- There are no inverses, so nothing is asked of what the pool remembers.
    have hagrees : Agrees ops False (i.parse text) (i.unpooled.parse text) (Twins ops False) :=
      agrees_parse fun e he => agrees_transformOf hops hsound hconsistent e (.inl (hfree e he))
    exact (hagrees.result (sound_poolAfter hsound before) _).mono fun _ _ _ _ htu => htu.forget_eq
  · -- All inverses are outside of everything else, where they are settled.
    have hagrees : ∀ earlier ∈ text :: before, Agrees ops True (i.parse earlier)
        (i.unpooled.parse earlier) fun t u => t.settle = u.settle := fun earlier hearlier =>
      agrees_parse fun e he =>
        agrees_transformOf_outside hops hsound hconsistent (houtside earlier hearlier e he)
    have hpool : Pool.Steady ops True (i.poolAfter before) :=
      steady_poolAfter fun earlier hearlier _ =>
        (hagrees earlier (List.mem_cons_of_mem text hearlier)).steady_pool
    exact ((hagrees text List.mem_cons_self).result hpool _).mono fun _ _ _ _ htu =>
      Transform.forget_eq_of_settle htu

end Interpreter

/-! ## An interpreter with shifts -/

namespace Shift

theorem registry_consistent [Scalar α] : (registry (α := α)).Consistent := by
  intro name m ps t hm ht
  rcases eq_of_get?_registry hm with rfl | rfl
  · obtain ⟨d, -, hd⟩ := bind_eq_ok.1 ht
    cases hd
    rfl
  · obtain ⟨matrix, -, hmatrix⟩ := bind_eq_ok.1 ht
    exact Transform.consistent_ofMatrix hmatrix

/-- A pass-through with an inverse inside. -/
def halvingText : String :=
  "PASSTHROUGH_MT[1, 0, INVERSE_MT[PARAM_MT[\"Affine\", PARAMETER[\"elt_0_0\", 2]]]]"

/-- The inverse of the same pass-through, with the computed coefficients inside. -/
def doublingText : String :=
  "INVERSE_MT[PASSTHROUGH_MT[1, 0, PARAM_MT[\"Affine\", PARAMETER[\"elt_0_0\", 0.5]]]]"

/-- The pass-through of the first text takes the place of the equal one in the second text. -/
theorem parse_unpooled_doubling : ∃ t u,
    (interpreter.parse doublingText (interpreter.poolAfter [halvingText])).1 = .ok t ∧
      (interpreter.unpooled.parse doublingText
        (interpreter.unpooled.poolAfter [halvingText])).1 = .ok u ∧
      t.same u = true ∧ t.text none = u.text none := by
  have hparse : (interpreter.parse doublingText
      (interpreter.poolAfter [halvingText])).1.toBool = true := by decide +kernel
  have hagree := Interpreter.parse_unpooled (i := interpreter)
    (interpreter_lawful.builder.determined rfl) interpreter_lawful.registry.sound
    registry_consistent [halvingText] doublingText
    (.inl AffineCoefficients.reversible_of_exact)
  cases hresult : (interpreter.parse doublingText (interpreter.poolAfter [halvingText])).1 with
  -- Both parses of this text succeed, so an error is not an answer here.
  | error e =>
    rw [hresult] at hparse
    cases hparse
  | ok t =>
    obtain ⟨u, hu, hsame, htext⟩ := hagree.exists_of_ok hresult
    exact ⟨t, u, rfl, hu, hsame, htext none⟩

end Shift

/-! ## An interpreter of doubles -/

namespace Double

/-- An interpreter with the methods of the library, which pools. -/
def interpreter : Interpreter Float := ⟨⟨.builtin, {}⟩, 0⟩

/-- A pass-through with the inverse of a scaling by 49 inside. -/
def reciprocalText : String :=
  "PASSTHROUGH_MT[1, 0, INVERSE_MT[PARAM_MT[\"Affine\", PARAMETER[\"elt_0_0\", 49]]]]"

/-- The inverse of the same pass-through. -/
def scalingText : String :=
  "INVERSE_MT[PASSTHROUGH_MT[1, 0, PARAM_MT[\"Affine\", " ++
    "PARAMETER[\"elt_0_0\", 0.02040816326530612], PARAMETER[\"elt_0_1\", -0], " ++
    "PARAMETER[\"elt_1_0\", -0]]]]"

/-- The text of the transform of `scalingText`, read after `reciprocalText`. -/
def scaled (i : Interpreter Float) : Option String :=
  (i.parse scalingText (i.poolAfter [reciprocalText])).1.toOption.map (·.text none)

theorem scaled_pooled : scaled interpreter =
    some "PASSTHROUGH_MT[1, 0, PARAM_MT[\"Affine\", PARAMETER[\"elt_0_0\", 49]]]" := by
  rw [scaled, Interpreter.parse_eq_readAll]
  delta scalingText
  repeat rw [String.toList_append]
  repeat rw [String.toList_ofList]
  decide +kernel

/-- The product of 49 and its rounded reciprocal is not 1. -/
theorem scaled_unpooled : scaled interpreter.unpooled =
    some ("PASSTHROUGH_MT[1, 0, PARAM_MT[\"Affine\", " ++
      "PARAMETER[\"elt_0_0\", 49.00000000000001], PARAMETER[\"elt_0_2\", -0], " ++
      "PARAMETER[\"elt_1_2\", -0]]]") := by
  rw [scaled, Interpreter.parse_eq_readAll]
  delta scalingText
  repeat rw [String.toList_append]
  repeat rw [String.toList_ofList]
  decide +kernel

/-- With rounding, and with inverses inside of pass-throughs, pooling makes a difference. -/
theorem parse_unpooled_scaling : ¬ResultRel (fun t u => ∀ implied, t.text implied = u.text implied)
    (interpreter.parse scalingText (interpreter.poolAfter [reciprocalText])).1
    (interpreter.unpooled.parse scalingText
      (interpreter.unpooled.poolAfter [reciprocalText])).1 := by
  intro h
  have hne : scaled interpreter ≠ scaled interpreter.unpooled := by
    rw [scaled_pooled, scaled_unpooled]
    decide
  refine hne ?_
  unfold scaled
  generalize interpreter.parse scalingText _ = x at h ⊢
  -- Both answers have a text, or neither has one.
  generalize interpreter.unpooled.parse scalingText _ = y at h ⊢
  obtain ⟨x, _⟩ := x
  obtain ⟨y, _⟩ := y
  cases h with
  | ok htext => exact congrArg some (htext none)
  | error e => rfl

end Double

end CoordTransform
