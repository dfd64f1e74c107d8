import CoordTransform.Proofs.Element.Sessions
import CoordTransform.Proofs.Element.Writing

/-!
# What is Interpreted can be Expressed

Everything that an interpreter makes from a text can be expressed as an element again, as far as
shapes and counts go. A method is asked for matrices of at most `largestSize` rows and columns, and
products and inverses have no more rows and columns than the matrices they are made of. Counts of
copied components are written in the text or implied, and never change.

A registry owns the operations that its methods make again from their names and parameters. It is
`SelfContained` when its methods make transforms of operations that it owns. These operations are
determined by their names and parameters, so that it does no harm to pool them.
-/

namespace CoordTransform

open Transform Element

variable {α : Type}

section

variable [Scalar α]

/-! ## Shapes of matrices -/

namespace Method

theorem size_le {ps : Parameters α} {name : String} {n : Nat} (h : size ps name = .ok n) :
    n ≤ largestSize := by
  obtain ⟨v, -, h⟩ := bind_eq_ok.1 h
  split at h
  · split at h
    · next hsize =>
      cases h
      simp only [Bool.and_eq_true, decide_eq_true_eq] at hsize
      exact hsize.2
    · cases h
  · cases h

/-- Parameters describe no larger matrix than can be asked for. -/
theorem shape_matrixOfParameters {ps : Parameters α} {m : DenseMatrix α}
    (h : matrixOfParameters ps = .ok m) : m.rows ≤ largestSize ∧ m.cols ≤ largestSize := by
  obtain ⟨rows, hrows, h⟩ := bind_eq_ok.1 h
  obtain ⟨cols, hcols, h⟩ := bind_eq_ok.1 h
  obtain ⟨hmr, hmc, -⟩ := entryValue_of_foldlM h
  exact ⟨hmr.trans_le (size_le hrows), hmc.trans_le (size_le hcols)⟩

end Method

namespace Transform

variable {admitted : Nat → Prop} {registry : Registry α} {t u : Transform α}

theorem Describable.ofMatrix {m : DenseMatrix α} (hrows : m.rows ≤ Method.largestSize)
    (hcols : m.cols ≤ Method.largestSize) (h : Transform.ofMatrix m = .ok t) :
    t.Describable admitted registry := by
  obtain ⟨a, -, rfl⟩ | ⟨rfl, -⟩ := ofMatrix_eq_ok h
  · exact trivial
  · exact ⟨hrows, hcols⟩

theorem Describable.ownMatrix? {m : DenseMatrix α} (ht : t.Describable admitted registry)
    (hm : Builder.ownMatrix? t = some m) :
    m.rows ≤ Method.largestSize ∧ m.cols ≤ Method.largestSize := by
  cases t with
  | affine a =>
    cases hm
    exact (by decide : 3 ≤ 32 ∧ 3 ≤ 32)
  | linear n =>
    cases hm
    exact ht
  | _ => cases hm

/-- An inverse has the shapes, the counts and the operations of the transform. -/
theorem InverseOf.describable (hu : InverseOf t u) (ht : t.Describable admitted registry) :
    u.Describable admitted registry := by
  induction hu with
  | identity _ => exact ht
  | affine _ => exact trivial
  | linear hn _ =>
    obtain ⟨-, hrows, hcols⟩ := DenseMatrix.shape_inverse hn
    exact ⟨hrows.trans_le ht.1, hcols.trans_le ht.1⟩
  | concatenated _ _ _ ihf ihs => exact ⟨ihs ht.2, ihf ht.1⟩
  | passThrough _ ih => exact ⟨ih ht.1, ht.2⟩
  | operation _ => exact ht
  | inverseOperation => exact ht

end Transform

/-! ## Registries -/

/-- All numbers among the parameters are finite. -/
def Parameters.Finite (ps : Parameters α) : Prop :=
  ∀ p ∈ ps.entries, ∀ x, p.2 = .number x → Scalar.isFinite x = true

/-- An operation comes back from its method and its parameters, and its numbers are finite. -/
structure Registry.Owns (registry : Registry α) (op : Operation α) : Prop where
  rebuilt : Interpreter.Rebuilt registry op
  finite : op.parameters.Finite

/-- The matrix method is known by its name, and the other methods make sound transforms of
operations that the registry owns, not too large to be expressed. -/
structure Registry.SelfContained (registry : Registry α) : Prop where
  matrix : registry.get? Method.matrixName = some Method.matrix
  methods : ∀ ⦃name method ps t⦄, registry.get? name = some method → method.create ps = .ok t →
    method = Method.matrix ∨ t.Sound registry.Owns ∧ t.Expressible registry

namespace Registry

variable {registry : Registry α} {t : Transform α}

/-- The method of that name makes only one operation of the parameters. -/
theorem determined_owns [Scalar.Discrete α] (registry : Registry α) :
    Transform.Determined registry.Owns := by
  intro op op' hop hop' hsame
  -- Both operations are made again by the method that is found under their name.
  rw [Operation.same, Bool.and_eq_true, beq_iff_eq, Parameters.same_iff] at hsame
  obtain ⟨hmethod, hparameters⟩ := hsame
  obtain ⟨method, hget, hcreate⟩ := hop.rebuilt.method
  obtain ⟨method', hget', hcreate'⟩ := hop'.rebuilt.method
  rw [hmethod, hget'] at hget
  cases hget
  rw [hparameters, hcreate'] at hcreate
  cases hcreate
  rfl

namespace SelfContained

theorem sound (h : registry.SelfContained) : registry.Sound registry.Owns := by
  intro name method ps t hmethod ht
  obtain rfl | ⟨hsound, -⟩ := h.methods hmethod ht
  · obtain ⟨m, -, hm⟩ := bind_eq_ok.1 ht
    exact .ofMatrix hm
  · exact hsound

theorem describable_create (h : registry.SelfContained) {admitted : Nat → Prop}
    (hadmitted : ∀ n ≤ largestCount, admitted n) {name : String} {method : Method α}
    {ps : Parameters α} (hmethod : registry.get? name = some method)
    (ht : method.create ps = .ok t) : t.Describable admitted registry := by
  -- The library's method makes matrices that are not too large; other methods describe theirs.
  obtain rfl | ⟨-, hexpressible⟩ := h.methods hmethod ht
  · obtain ⟨m, hm, ht⟩ := bind_eq_ok.1 ht
    obtain ⟨hrows, hcols⟩ := Method.shape_matrixOfParameters hm
    exact .ofMatrix hrows hcols ht
  · exact hexpressible.mono hadmitted

end SelfContained

end Registry

/-! ## The builder and the interpreter -/

/-- A product has the rows of its left and the columns of its right factor. -/
theorem Builder.closed_describable (f : Builder α) (admitted : Nat → Prop)
    (registry : Registry α) : f.Closed (·.Describable admitted registry) where
  rounded {t} ht := by
    obtain hsame | ⟨_, _, -, hround⟩ := f.rounded_eq_or t
    · rwa [hsame]
    · rw [hround]
      exact trivial
  -- The only matrices that a simplification makes are products.
  product {_ _ m n p t} hfirst hsecond hm hn hp ht := by
    unfold DenseMatrix.multiply at hp
    split at hp
    · cases hp
    · cases hp
      exact .ofMatrix (m := n.product m) (hsecond.ownMatrix? hn).1 (hfirst.ownMatrix? hm).2 ht
  concatenated hfirst hsecond _ := ⟨hfirst, hsecond⟩
  inside h := h.1
  replace h hb := ⟨hb, h.2⟩

namespace Interpreter

variable {i : Interpreter α}

/-- Without rounding, nothing that the registry owns is mistaken for something else. -/
theorem faithful_owns [Scalar.Discrete α] (hrounding : i.builder.options.rounding = none) :
    i.builder.Faithful i.builder.registry.Owns :=
  ⟨hrounding, fun _ => i.builder.registry.determined_owns⟩

/-- Counts that are written are not too large, so that only the implied one has to be looked at. -/
theorem closed_describable (hregistry : i.builder.registry.SelfContained) {admitted : Nat → Prop}
    (hadmitted : ∀ n ≤ largestCount, admitted n) (htrailing : admitted i.impliedTrailing) :
    i.Closed (·.Describable admitted i.builder.registry) where
  builder := i.builder.closed_describable admitted _
  create := hregistry.describable_create hadmitted
  inverse ht hu := (inverseOf_of_inverse hu).describable ht
  passThrough {_ leading _ trailing} hcounts ht := by
    have hwritten : ∀ {e : Element α} {index n}, e.natural index = .ok n → admitted n :=
      fun h => hadmitted _ (natural_eq_ok_iff.1 h).choose_spec.2.2
    -- The trailing count is implied or written like the leading one.
    obtain ⟨hleading, ⟨-, rfl⟩ | ⟨-, hsecond⟩⟩ := counts_eq_ok_iff.1 hcounts
    · exact ⟨ht, hwritten hleading, htrailing⟩
    · exact ⟨ht, hwritten hleading, hwritten hsecond⟩

theorem closed_expressible (hregistry : i.builder.registry.SelfContained)
    (htrailing : i.impliedTrailing ≤ largestCount) :
    i.Closed (·.Expressible i.builder.registry) :=
  closed_describable hregistry (fun _ => id) htrailing

end Interpreter

end

/-! ## Texts -/

namespace Interpreter

variable [Numeral α] {i : Interpreter α} {P : Transform α → Prop}

/-- What every production keeps holds of all members of a pool that texts leave behind. -/
theorem Closed.poolAfter (hi : i.Closed P) (texts : List String) : ∀ t ∈ i.poolAfter texts, P t :=
  List.foldlRecOn (motive := fun pool => ∀ t ∈ pool, P t) texts _ (fun _ ht => nomatch ht)
    fun _ hpool text _ => (keeps_parse hi text hpool rfl).1

/-- It also holds of the transform of a text, whatever texts were read before. -/
theorem Closed.parse (hi : i.Closed P) {before : List String} {text : String} {t : Transform α}
    {pool' : Pool α} (h : i.parse text (i.poolAfter before) = (.ok t, pool')) : P t :=
  (keeps_parse hi text (hi.poolAfter before) h).2 t rfl

end Interpreter

end CoordTransform
