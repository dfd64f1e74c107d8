import Mathlib
import CoordTransform.Proofs.Double.Magnitude
import CoordTransform.Proofs.Method.RoundTrip

/-!
# Which Matrix Parameters Describe

Names are read without regard to case. The first parameter for each size decides it, and must be a
whole number from one to 32; without one the size is three. Every parameter whose name starts with
`elt_` must name an entry of a matrix of that shape and have a number as its value. An entry has
many names, since indices may have leading zeros and a plus; the last parameter that names it
decides its value. Nothing else in the list has any influence.
-/

namespace CoordTransform.Method

/-! ## Sizes -/

/-- The size that parameters ask for under a name: what the first parameter with the name gives,
a whole number from one to 32, and three when there is none. -/
inductive AsksFor (es : List (String × ParameterValue Float)) (name : String) : Nat → Prop
  | default (h : ∀ e ∈ es, Text.lower e.1 ≠ name) : AsksFor es name 3
  | given (before after : List (String × ParameterValue Float)) {spelled : String} {n : Nat}
      (hes : es = before ++ (spelled, .number (Float.ofNat n)) :: after)
      (hname : Text.lower spelled = name) (hfirst : ∀ e ∈ before, Text.lower e.1 ≠ name)
      (hn : 1 ≤ n ∧ n ≤ 32) : AsksFor es name n

theorem numberOr_eq_ok_iff {es : List (String × ParameterValue Float)} {name : String}
    {d x : Float} : (⟨es⟩ : Parameters Float).numberOr name d = .ok x ↔
      (es.find? (fun e => Text.alike e.1 name) = none ∧ x = d) ∨
        ∃ spelled, es.find? (fun e => Text.alike e.1 name) = some (spelled, .number x) := by
  unfold Parameters.numberOr Parameters.get?
  cases es.find? (fun e => Text.alike e.1 name) with
  | none => simp [eq_comm]
  | some e => obtain ⟨spelled, value | text⟩ := e <;> simp

/-- Counts are different doubles. -/
theorem ofNat_inj {n k : Nat} (hn : 1 ≤ n ∧ n ≤ 32) (hk : 1 ≤ k ∧ k ≤ 32) :
    Float.ofNat n = Float.ofNat k ↔ n = k := by
  rw [← Double.toNat?_eq_some_iff_eq_ofNat hk.1 (by omega),
    (Double.toNat?_eq_some_iff_eq_ofNat hn.1 (by omega)).2 rfl, Option.some.injEq]

/-- The numbers that give a size are the whole ones from one to 32. -/
theorem size_eq_ok_iff_numberOr {ps : Parameters Float} {name : String} {n : Nat} :
    size ps name = .ok n ↔
      ps.numberOr name (Scalar.ofNat 3) = .ok (Float.ofNat n) ∧ 1 ≤ n ∧ n ≤ 32 := by
  rw [size, bind_eq_ok]
  constructor
  · rintro ⟨x, hx, h⟩
    split at h
    · next k hk =>
      split at h
      · next hbound =>
        cases h
        -- Whole doubles in these bounds are those of their numbers.
        rw [Bool.and_eq_true, decide_eq_true_iff, decide_eq_true_iff] at hbound
        have hn : 1 ≤ n ∧ n ≤ 32 := hbound
        rw [hx, (Double.toNat?_eq_some_iff_eq_ofNat hn.1 (by omega)).1 hk]
        exact ⟨rfl, hn⟩
      · cases h
    · cases h
  · rintro ⟨hx, hn⟩
    refine ⟨_, hx, ?_⟩
    have hcount : Scalar.toNat? (Float.ofNat n) = some n :=
      (Double.toNat?_eq_some_iff_eq_ofNat hn.1 (by omega)).2 rfl
    rw [hcount]
    exact if_pos (by simp [largestSize, hn])

/-- Exactly the size that parameters ask for is found. -/
theorem size_eq_ok_iff {es : List (String × ParameterValue Float)} {name : String}
    (hname : Text.lower name = name) {n : Nat} : size ⟨es⟩ name = .ok n ↔ AsksFor es name n := by
  have halike : ∀ e : String × ParameterValue Float,
      Text.alike e.1 name = true ↔ Text.lower e.1 = name :=
    fun e => by rw [Text.alike_iff, hname]
  rw [size_eq_ok_iff_numberOr, numberOr_eq_ok_iff]
  constructor
  · rintro ⟨⟨hnone, hthree⟩ | ⟨spelled, hfind⟩, hn⟩
    · -- Only three is the same double as the default.
      obtain rfl := (ofNat_inj hn (by decide)).1 hthree
      exact .default fun e he => mt (halike e).2 (List.find?_eq_none.1 hnone e he)
    · -- The first parameter with the name gives the size, and those before it have other names.
      obtain ⟨he, before, after, hes, hfirst⟩ := List.find?_eq_some_iff_append.1 hfind
      refine .given before after hes ((halike _).1 he) (fun e' he' => mt (halike e').2 ?_) hn
      simpa using hfirst e' he'
  · -- Conversely, the parameter that is described is the first one that is found.
    rintro (hnone | ⟨before, after, hes, hspelled, hfirst, hn⟩)
    · exact ⟨.inl ⟨List.find?_eq_none.2 fun e he => mt (halike e).1 (hnone e he), rfl⟩, by decide⟩
    · refine ⟨.inr ⟨_, List.find?_eq_some_iff_append.2
        ⟨(halike _).2 hspelled, before, after, hes, ?_⟩⟩, hn⟩
      intro e he
      simpa using mt (halike e).1 (hfirst e he)

/-! ## The matrix -/

/-- Parameters that describe a matrix of a shape. -/
structure Describes (es : List (String × ParameterValue Float)) (rows cols : Nat) : Prop where
  asksForRows : AsksFor es "num_row" rows
  asksForCols : AsksFor es "num_col" cols
  givesEntries : GivesEntries es rows cols

theorem lower_num_row : Text.lower "num_row" = "num_row" := by decide +kernel

theorem lower_num_col : Text.lower "num_col" = "num_col" := by decide +kernel

/-- Parameters that describe a shape are read into a matrix of that shape. -/
theorem Describes.exists_matrix {es : List (String × ParameterValue Float)} {rows cols : Nat}
    (h : Describes es rows cols) : ∃ m, matrixOfParameters ⟨es⟩ = .ok m ∧
      m.rows = rows ∧ m.cols = cols ∧ ∀ r < rows, ∀ c < cols,
        EntryValue es ((defaultMatrix rows cols : DenseMatrix Float).entry r c) r c
          (m.entry r c) := by
  obtain ⟨m, hm⟩ :=
    (exists_foldlM_putParameter_iff (m := defaultMatrix rows cols)).2 h.givesEntries
  have hrows := (size_eq_ok_iff lower_num_row).2 h.asksForRows
  have hcols := (size_eq_ok_iff lower_num_col).2 h.asksForCols
  exact ⟨m, bind_eq_ok.2 ⟨rows, hrows, bind_eq_ok.2 ⟨cols, hcols, hm⟩⟩, entryValue_of_foldlM hm⟩

/-- Parameters that are read into a matrix describe one. -/
theorem describes_of_matrixOfParameters {es : List (String × ParameterValue Float)}
    {m : DenseMatrix Float} (h : matrixOfParameters ⟨es⟩ = .ok m) :
    ∃ rows cols, Describes es rows cols := by
  obtain ⟨rows, hrows, h⟩ := bind_eq_ok.1 h
  obtain ⟨cols, hcols, h⟩ := bind_eq_ok.1 h
  exact ⟨rows, cols, (size_eq_ok_iff lower_num_row).1 hrows,
    (size_eq_ok_iff lower_num_col).1 hcols, exists_foldlM_putParameter_iff.1 ⟨m, h⟩⟩

/-! ## Parameters that are read -/

/-- Names that are read: those of the sizes and those of entries. -/
def IsRead (name : String) : Prop :=
  Text.lower name = "num_row" ∨ Text.lower name = "num_col" ∨ IsEntryName name

instance : DecidablePred IsRead := fun _ => inferInstanceAs (Decidable (_ ∨ _ ∨ _))

section

variable {α : Type} [Scalar α]

theorem size_filter_isRead (es : List (String × ParameterValue α)) {name : String}
    (hname : ∀ s, Text.alike s name = true → IsRead s) :
    size ⟨es.filter fun e => IsRead e.1⟩ name = size ⟨es⟩ name := by
  have hfind : (es.filter fun e => IsRead e.1).find? (fun e => Text.alike e.1 name) =
      es.find? fun e => Text.alike e.1 name := by
    rw [List.find?_filter]
    congr 1
    funext e
    -- What is looked for is kept.
    have hkept := hname e.1
    grind
  unfold size Parameters.numberOr Parameters.get?
  dsimp only
  rw [hfind]

theorem foldlM_filter_isRead (es : List (String × ParameterValue α)) (m : DenseMatrix α) :
    (es.filter fun e => IsRead e.1).foldlM putParameter m = es.foldlM putParameter m := by
  rw [List.foldlM_filter]
  congr 1
  funext x e
  split
  · rfl
  · next hother =>
    -- What is left out is passed over.
    symm
    refine putParameter_eq_ok_iff.2 (.inl ⟨fun hentry => ?_, rfl⟩)
    simp [IsRead, hentry] at hother

/-- Parameters with other names have no influence, neither on the matrix nor on an error. -/
theorem matrixOfParameters_filter_isRead (es : List (String × ParameterValue α)) :
    matrixOfParameters ⟨es.filter fun e => IsRead e.1⟩ = matrixOfParameters ⟨es⟩ := by
  have hrow : ∀ s, Text.alike s "num_row" = true → IsRead s := fun s h =>
    .inl (((Text.alike_iff _ _).1 h).trans lower_num_row)
  have hcol : ∀ s, Text.alike s "num_col" = true → IsRead s := fun s h =>
    .inr (.inl (((Text.alike_iff _ _).1 h).trans lower_num_col))
  unfold matrixOfParameters
  simp only [size_filter_isRead es hrow, size_filter_isRead es hcol, foldlM_filter_isRead]

end

/-! ## What parameters describe -/

/-- Parameters are read into a matrix exactly when they describe a shape. The matrix has that
shape, each of its entries the value that the last parameter with one of its names gives, or that
of the default matrix. Parameters with other names have no influence. -/
theorem matrixOfParameters_describes (ps : Parameters Float) :
    ((∃ m, matrixOfParameters ps = .ok m) ↔ ∃ rows cols, Describes ps.entries rows cols) ∧
    (∀ rows cols, Describes ps.entries rows cols → ∃ m, matrixOfParameters ps = .ok m ∧
      m.rows = rows ∧ m.cols = cols ∧ ∀ r < rows, ∀ c < cols,
        EntryValue ps.entries
          (if rows ≠ cols ∧ r + 1 = rows then if c + 1 = cols then 1 else 0
            else if r = c then 1 else 0) r c (m.entry r c)) ∧
    matrixOfParameters ⟨ps.entries.filter fun e => IsRead e.1⟩ = matrixOfParameters ps := by
  obtain ⟨es⟩ := ps
  refine ⟨⟨fun ⟨m, hm⟩ => describes_of_matrixOfParameters hm, ?_⟩, fun rows cols h => ?_,
    matrixOfParameters_filter_isRead es⟩
  · -- A shape that is described has a matrix, by the second part.
    rintro ⟨rows, cols, h⟩
    obtain ⟨m, hm, -⟩ := h.exists_matrix
    exact ⟨m, hm⟩
  · -- The value without a parameter is that of the default matrix.
    obtain ⟨m, hm, hrows, hcols, hentries⟩ := h.exists_matrix
    refine ⟨m, hm, hrows, hcols, fun r hr c hc => ?_⟩
    rw [← entry_defaultMatrix hr hc]
    exact hentries r hr c hc

/-- A size in capitals, an entry named twice, with leading zeros and a plus, and a comment. -/
def spelledParameters : Parameters Float :=
  ⟨[("NUM_ROW", .number 2), ("elt_0_1", .number 7), ("remark", .text "scaled"),
    ("Elt_00_+01", .number 8)]⟩

/-- They describe a matrix with two rows and three columns. The later name of the entry decides. -/
theorem matrixOfParameters_describes_spelled :
    Describes spelledParameters.entries 2 3 ∧
    ∃ m, matrixOfParameters spelledParameters = .ok m ∧ m.rows = 2 ∧ m.cols = 3 ∧
      m.entry 0 1 = 8 ∧ m.entry 1 2 = 1 := by
  have hdescribes : Describes spelledParameters.entries 2 3 := by
    -- The first parameter gives the rows, none gives the columns, and two are entries in the
    -- bounds.
    refine ⟨.given [] (spelledParameters.entries.drop 1) rfl ?_ ?_ ?_, .default ?_, ?_⟩
    · decide +kernel
    · simp
    · simp
    · simp only [spelledParameters, List.forall_mem_cons]
      decide +kernel
    · simp only [GivesEntries, spelledParameters, List.forall_mem_cons]
      refine ⟨fun hname => ?_, fun _ => ?_, fun hname => ?_, fun _ => ?_, by simp⟩
      · exact absurd hname (by decide +kernel)
      · exact ⟨0, by simp, 1, by simp, by decide +kernel, 7, rfl⟩
      · exact absurd hname (by decide +kernel)
      · exact ⟨0, by simp, 1, by simp, by decide +kernel, 8, rfl⟩
  obtain ⟨m, hm, hrows, hcols, hentries⟩ :=
    (matrixOfParameters_describes spelledParameters).2.1 2 3 hdescribes
  refine ⟨hdescribes, m, hm, hrows, hcols, (hentries 0 (by simp) 1 (by simp)).unique ?_,
    (hentries 1 (by simp) 2 (by simp)).unique ?_⟩
  · -- The last parameter decides on the first entry, and none gives the second one.
    exact .given (spelledParameters.entries.take 3) [] rfl (by decide +kernel) (by simp)
  · refine .default ?_
    simp only [spelledParameters, List.forall_mem_cons]
    decide +kernel

end CoordTransform.Method
