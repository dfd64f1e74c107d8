import Mathlib
import CoordTransform.Proofs.ExactArithmetic
import CoordTransform.Proofs.Method.Entries
import CoordTransform.Proofs.Method.Parameters

/-!
# Matrices from Parameters and Back

The parameters of a matrix describe a matrix of the same shape, and the matrix itself when
representations tell values apart: an entry that is left out agrees with the default matrix, and
every other entry has a name of its own, which reads back as the row and the column.
-/

namespace CoordTransform

/-- Whole numbers up to the greatest count are scalars, and are recognised again. -/
def Scalar.KeepsCounts (α : Type) [Scalar α] : Prop :=
  ∀ n < 2 ^ 32, Scalar.toNat? (Scalar.ofNat n : α) = some n

/-- The scalar of a natural number is recognised as no count but the number itself. -/
def Scalar.Unmistakable (α : Type) [Scalar α] (n : Nat) : Prop :=
  ∀ m < 2 ^ 32, Scalar.toNat? (Scalar.ofNat n : α) = some m → m = n

theorem Scalar.KeepsCounts.unmistakable {α : Type} [Scalar α] (hkeeps : Scalar.KeepsCounts α)
    {n : Nat} (hn : n < 2 ^ 32) : Scalar.Unmistakable α n := by
  intro m _ hm
  rw [hkeeps n hn] at hm
  exact (Option.some.inj hm).symm

namespace Method

/-! ## Names -/

theorem toList_lower (s : String) : (Text.lower s).toList = s.toList.map Char.toLower :=
  String.toList_ofList

/-- The digits of an index are in small letters and read back. -/
theorem index_digits {n : Nat} (hn : n < largestSize) :
    (toString n).toList.map Char.toLower = (toString n).toList ∧
      index? (toString n).toList = some n := by
  -- There are few indices, and all of them are looked at.
  have hall : (List.range largestSize).all (fun n =>
      (toString n).toList.map Char.toLower == (toString n).toList &&
        index? (toString n).toList == some n) = true := by
    decide +kernel
  have hchecked := List.all_eq_true.1 hall n (List.mem_range.2 hn)
  rwa [Bool.and_eq_true, beq_iff_eq, beq_iff_eq] at hchecked

theorem afterElt?_entryName {r c : Nat} (hr : r < largestSize) (hc : c < largestSize) :
    afterElt? (entryName r c) = some ((toString r).toList ++ '_' :: (toString c).toList) := by
  -- The indices are digits, which have no case.
  have hlist : (entryName r c).toList =
      'e' :: 'l' :: 't' :: '_' :: ((toString r).toList ++ '_' :: (toString c).toList) := by
    simp only [entryName, String.toList_append]
    rw [List.append_assoc, List.append_assoc]
    rfl
  have hlower : (Text.lower (entryName r c)).toList =
      'e' :: 'l' :: 't' :: '_' :: ((toString r).toList ++ '_' :: (toString c).toList) := by
    rw [toList_lower, hlist]
    simp only [List.map_cons, List.map_append, (index_digits hr).1, (index_digits hc).1]
    rfl
  rw [afterElt?, hlower]
  rfl

theorem indices?_digits {r c : Nat} (hr : r < largestSize) (hc : c < largestSize) :
    indices? ((toString r).toList ++ '_' :: (toString c).toList) = some (r, c) := by
  have hr' := (index_digits hr).2
  have hc' := (index_digits hc).2
  exact indices?_eq_some_iff.2
    ⟨_, _, rfl, index?_eq_some_iff.1 hr', index?_eq_some_iff.1 hc'⟩

/-- What follows `elt_` is the same in names that are alike. -/
theorem afterElt?_of_alike {s t : String} (h : Text.alike s t = true) :
    afterElt? s = afterElt? t := by
  rw [afterElt?, afterElt?, (Text.alike_iff s t).1 h]

/-- Different entries have names that are not alike. -/
theorem entryName_not_alike {r c r' c' : Nat} (hr : r < largestSize) (hc : c < largestSize)
    (hr' : r' < largestSize) (hc' : c' < largestSize) (hne : (r, c) ≠ (r', c')) :
    Text.alike (entryName r c) (entryName r' c') = false := by
  -- Names that are alike would be read as the same row and column.
  by_contra halike
  rw [Bool.not_eq_false] at halike
  have hafter := afterElt?_of_alike halike
  rw [afterElt?_entryName hr hc, afterElt?_entryName hr' hc', Option.some.injEq] at hafter
  have hindices := congrArg indices? hafter
  rw [indices?_digits hr hc, indices?_digits hr' hc', Option.some.injEq] at hindices
  exact hne hindices

/-- The name of an entry is like no name that names no entry. -/
theorem entryName_not_alike_of_none {r c : Nat} (hr : r < largestSize) (hc : c < largestSize)
    {name : String} (hname : afterElt? name = none) :
    Text.alike (entryName r c) name = false ∧ Text.alike name (entryName r c) = false := by
  constructor <;>
  · by_contra halike
    rw [Bool.not_eq_false] at halike
    have hafter := afterElt?_of_alike halike
    rw [afterElt?_entryName hr hc, hname] at hafter
    cases hafter

/-! ## The parameters of a matrix -/

variable {α : Type} [Scalar α]

/-- The parameter of an entry. -/
def entryParameter (m : DenseMatrix α) (p : Nat × Nat) : String × ParameterValue α :=
  (entryName p.1 p.2, .number (m.entry p.1 p.2))

/-- The positions of a matrix, by rows. -/
def positions (m : DenseMatrix α) : List (Nat × Nat) :=
  List.range m.rows ×ˢ List.range m.cols

omit [Scalar α] in
theorem mem_positions {m : DenseMatrix α} {p : Nat × Nat} :
    p ∈ positions m ↔ p.1 < m.rows ∧ p.2 < m.cols := by
  rw [positions, List.mem_product, List.mem_range, List.mem_range]

omit [Scalar α] in
theorem nodup_positions (m : DenseMatrix α) : (positions m).Nodup :=
  List.nodup_range.product List.nodup_range

/-- Whether an entry differs from that of a default matrix. -/
def differs (m default : DenseMatrix α) (p : Nat × Nat) : Bool :=
  !Scalar.same (m.entry p.1 p.2) (default.entry p.1 p.2)

theorem entryParameters_eq (m default : DenseMatrix α) : entryParameters m default =
    ((positions m).filter (differs m default)).map (entryParameter m) := by
  -- A position is left out when its entry is the default one.
  have hflat : ∀ ps : List (Nat × Nat), ps.flatMap (fun p =>
      if Scalar.same (m.entry p.1 p.2) (default.entry p.1 p.2) then [] else [entryParameter m p]) =
      (ps.filter (differs m default)).map (entryParameter m) := by
    intro ps
    induction ps with
    | nil => rfl
    | cons p ps ih =>
      rw [List.flatMap_cons, ih, List.filter_cons, differs]
      cases Scalar.same (m.entry p.1 p.2) (default.entry p.1 p.2)
      · rfl
      · rfl
  rw [← hflat]
  change _ = (List.flatMap _ _).flatMap _
  simp only [List.flatMap_assoc, List.flatMap_map]
  rfl

/-- Parameters that name only entries within the greatest size. -/
def NamesEntries (es : List (String × ParameterValue α)) : Prop :=
  ∀ e ∈ es, ∃ r c, r < largestSize ∧ c < largestSize ∧ e.1 = entryName r c

theorem namesEntries_entryParameters {m : DenseMatrix α} (hrows : m.rows ≤ largestSize)
    (hcols : m.cols ≤ largestSize) (default : DenseMatrix α) :
    NamesEntries (entryParameters m default) := by
  intro e he
  rw [entryParameters_eq] at he
  obtain ⟨p, hp, rfl⟩ := List.mem_map.1 he
  have hmem := mem_positions.1 (List.mem_filter.1 hp).1
  exact ⟨p.1, p.2, Nat.lt_of_lt_of_le hmem.1 hrows, Nat.lt_of_lt_of_le hmem.2 hcols, rfl⟩

theorem distinct_entryParameters {m : DenseMatrix α} (hrows : m.rows ≤ largestSize)
    (hcols : m.cols ≤ largestSize) (default : DenseMatrix α) :
    Parameters.Distinct (entryParameters m default) := by
  rw [entryParameters_eq, Parameters.Distinct, List.pairwise_map]
  refine List.Pairwise.imp_of_mem ?_ ((nodup_positions m).filter _)
  intro p p' hp hp' hne
  have hmem := mem_positions.1 (List.mem_filter.1 hp).1
  have hmem' := mem_positions.1 (List.mem_filter.1 hp').1
  exact entryName_not_alike (Nat.lt_of_lt_of_le hmem.1 hrows) (Nat.lt_of_lt_of_le hmem.2 hcols)
    (Nat.lt_of_lt_of_le hmem'.1 hrows) (Nat.lt_of_lt_of_le hmem'.2 hcols) hne

/-- The parameters of the sizes. -/
def sizes (rows cols : Nat) : List (String × ParameterValue α) :=
  sizeParameter "num_row" rows ++ sizeParameter "num_col" cols

theorem afterElt?_of_mem_sizes {rows cols : Nat} {e : String × ParameterValue α}
    (he : e ∈ sizes rows cols) : afterElt? e.1 = none := by
  have hpart : ∀ {name : String} {n : Nat}, e ∈ sizeParameter (α := α) name n → e.1 = name := by
    intro name n h
    unfold sizeParameter at h
    split at h
    · cases h
    · rw [List.mem_singleton.1 h]
  rcases List.mem_append.1 he with h | h
  · rw [hpart h]
    decide +kernel
  · rw [hpart h]
    decide +kernel

theorem distinct_sizes (rows cols : Nat) :
    Parameters.Distinct (sizes (α := α) rows cols) := by
  unfold sizes sizeParameter
  split
  · split
    · exact .nil
    · exact List.pairwise_singleton _ _
  · split
    · exact List.pairwise_singleton _ _
    · exact List.pairwise_pair.2
        (by decide +kernel : Text.alike "num_row" "num_col" = false)

/-- No two parameters of a matrix have names that are alike. -/
theorem distinct_parameters {rows cols : Nat} {es : List (String × ParameterValue α)}
    (hes : NamesEntries es) (hdistinct : Parameters.Distinct es) :
    Parameters.Distinct (sizes rows cols ++ es) := by
  refine List.pairwise_append.2 ⟨distinct_sizes rows cols, hdistinct, fun e he e' he' => ?_⟩
  obtain ⟨r, c, hr, hc, hname⟩ := hes e' he'
  rw [hname]
  exact (entryName_not_alike_of_none hr hc (afterElt?_of_mem_sizes he)).2

/-! ## Sizes -/

theorem find?_sizeParameter (name name' : String) (n : Nat) :
    (sizeParameter (α := α) name n).find? (fun e => Text.alike e.1 name') =
      if Text.alike name name' ∧ n ≠ 3 then some (name, .number (Scalar.ofNat n)) else none := by
  unfold sizeParameter
  by_cases hn : n = 3
  · simp [hn]
  · cases halike : Text.alike name name' <;> simp [hn, halike]

omit [Scalar α] in
theorem find?_entries {es : List (String × ParameterValue α)} (hes : NamesEntries es)
    {name : String} (hname : afterElt? name = none) :
    es.find? (fun e => Text.alike e.1 name) = none := by
  rw [List.find?_eq_none]
  intro e he
  obtain ⟨r, c, hr, hc, hentry⟩ := hes e he
  rw [hentry, (entryName_not_alike_of_none hr hc hname).1]
  decide

/-- The sizes are found under their names, or are the default. -/
theorem numberOr_sizes (rows cols : Nat) {es : List (String × ParameterValue α)}
    (hes : NamesEntries es) :
    (⟨sizes rows cols ++ es⟩ : Parameters α).numberOr "num_row" (Scalar.ofNat 3) =
        .ok (Scalar.ofNat rows) ∧
      (⟨sizes rows cols ++ es⟩ : Parameters α).numberOr "num_col" (Scalar.ofNat 3) =
        .ok (Scalar.ofNat cols) := by
  -- The names of entries are different from those of the sizes.
  have hrow : es.find? (fun e => Text.alike e.1 "num_row") = none :=
    find?_entries hes (by decide +kernel)
  have hcol : es.find? (fun e => Text.alike e.1 "num_col") = none :=
    find?_entries hes (by decide +kernel)
  simp only [Parameters.numberOr, Parameters.get?, sizes, List.find?_append, find?_sizeParameter,
    hrow, hcol, show Text.alike "num_row" "num_row" = true by decide +kernel,
    show Text.alike "num_col" "num_col" = true by decide +kernel,
    show Text.alike "num_row" "num_col" = false by decide +kernel,
    show Text.alike "num_col" "num_row" = false by decide +kernel]
  constructor
  · by_cases h : rows = 3 <;> simp [h]
  · by_cases h : cols = 3 <;> simp [h]

theorem size_of_numberOr (hkeeps : Scalar.KeepsCounts α) {ps : Parameters α} {name : String}
    {n : Nat} (hn : 1 ≤ n ∧ n ≤ largestSize)
    (h : ps.numberOr name (Scalar.ofNat 3) = .ok (Scalar.ofNat n)) : size ps name = .ok n := by
  have hnat : Scalar.toNat? (Scalar.ofNat n : α) = some n :=
    hkeeps n (Nat.lt_of_le_of_lt hn.2 (by decide))
  rw [size, h]
  dsimp only [bind, Except.bind]
  rw [hnat]
  exact if_pos (by simpa using hn)

/-! ## Entries -/

/-- Sizes are passed over. -/
theorem foldlM_sizes (rows cols : Nat) (x : DenseMatrix α) :
    (sizes rows cols).foldlM putParameter x = .ok x := by
  have hskip : ∀ es : List (String × ParameterValue α), (∀ e ∈ es, afterElt? e.1 = none) →
      es.foldlM putParameter x = .ok x := by
    intro es
    induction es with
    | nil => exact fun _ => rfl
    | cons e es ih =>
      intro hes
      rw [List.foldlM_cons, putParameter, hes e List.mem_cons_self]
      exact ih fun e' he' => hes e' (List.mem_cons_of_mem e he')
  exact hskip _ fun e he => afterElt?_of_mem_sizes he

theorem putParameter_entry {m x : DenseMatrix α} {p : Nat × Nat} (hr : p.1 < largestSize)
    (hc : p.2 < largestSize) (hrows : p.1 < x.rows) (hcols : p.2 < x.cols) :
    putParameter x (entryParameter m p) = .ok (x.set p.1 p.2 (m.entry p.1 p.2)) := by
  have hname : NamesEntry (entryName p.1 p.2) p.1 p.2 :=
    namesEntry_iff.2 ⟨_, afterElt?_entryName hr hc, indices?_digits hr hc⟩
  exact putParameter_eq_ok_iff.2 (.inr ⟨p.1, hrows, p.2, hcols, hname, _, rfl, rfl⟩)

/-- Putting entries replaces those of the given positions that differ from the default matrix. -/
theorem foldlM_entries {m : DenseMatrix α} (default : DenseMatrix α)
    (hrows : m.rows ≤ largestSize) (hcols : m.cols ≤ largestSize) (ps : List (Nat × Nat))
    (hps : ∀ p ∈ ps, p.1 < m.rows ∧ p.2 < m.cols) :
    ∀ x : DenseMatrix α, x.rows = m.rows → x.cols = m.cols → ∃ y,
      ((ps.filter (differs m default)).map (entryParameter m)).foldlM putParameter x = .ok y ∧
      y.rows = m.rows ∧ y.cols = m.cols ∧ ∀ i < m.rows, ∀ j < m.cols, y.entry i j =
        if (i, j) ∈ ps ∧ differs m default (i, j) = true then m.entry i j else x.entry i j := by
  induction ps with
  | nil => exact fun x hr hc => ⟨x, rfl, hr, hc, fun i _ j _ => by simp⟩
  | cons p ps ih =>
    intro x hr hc
    have hp := hps p List.mem_cons_self
    have hps' : ∀ q ∈ ps, q.1 < m.rows ∧ q.2 < m.cols :=
      fun q hq => hps q (List.mem_cons_of_mem p hq)
    rw [List.filter_cons]
    -- The first position is put before the others, which may only put the same value again.
    split
    · next hdiffers =>
      obtain ⟨y, hy, hyr, hyc, hentry⟩ := ih hps' (x.set p.1 p.2 (m.entry p.1 p.2)) hr hc
      refine ⟨y, ?_, hyr, hyc, fun i hi j hj => ?_⟩
      · rw [List.map_cons, List.foldlM_cons, putParameter_entry (Nat.lt_of_lt_of_le hp.1 hrows)
          (Nat.lt_of_lt_of_le hp.2 hcols) (hr ▸ hp.1) (hc ▸ hp.2)]
        exact hy
      · rw [hentry i hi j hj, entry_set _ (hr ▸ hi) (hc ▸ hj)]
        by_cases heq : (i, j) = p
        · subst heq
          simp [hdiffers]
        · simp [heq]
    · next hsame =>
      obtain ⟨y, hy, hyr, hyc, hentry⟩ := ih hps' x hr hc
      refine ⟨y, hy, hyr, hyc, fun i hi j hj => ?_⟩
      rw [hentry i hi j hj]
      by_cases heq : (i, j) = p
      · subst heq
        simp [hsame]
      · simp [heq]

/-! ## Values -/

/-- The names that the matrix method looks at: those of the sizes and those of entries. -/
def IsName (name : String) : Prop :=
  name = "num_row" ∨ name = "num_col" ∨ ∃ rest, afterElt? name = some rest

theorem number_of_size {ps : Parameters α} {name : String} {n : Nat} (h : size ps name = .ok n)
    {value : ParameterValue α} (hget : ps.get? name = some value) : ∃ v, value = .number v := by
  obtain ⟨v, hv, -⟩ := bind_eq_ok.1 h
  unfold Parameters.numberOr at hv
  rw [hget] at hv
  cases value with
  | number x => exact ⟨x, rfl⟩
  | text s => cases hv

/-- Sizes and entries are numbers, in parameters that describe a matrix. -/
theorem number_of_matrixOfParameters {es : List (String × ParameterValue α)}
    (hdistinct : Parameters.Distinct es) {m : DenseMatrix α}
    (h : matrixOfParameters ⟨es⟩ = .ok m) {e : String × ParameterValue α} (he : e ∈ es)
    (hname : IsName e.1) : ∃ v, e.2 = .number v := by
  obtain ⟨rows, hrows, h⟩ := bind_eq_ok.1 h
  obtain ⟨cols, hcols, h⟩ := bind_eq_ok.1 h
  have hget : (⟨es⟩ : Parameters α).get? e.1 = some e.2 :=
    congrArg (Option.map Prod.snd) (hdistinct.find?_of_mem he)
  -- It is the number of rows, the number of columns or an entry, and each of them was read as a
  -- number.
  rcases hname with hname | hname | ⟨rest, hname⟩
  · exact number_of_size hrows (hname ▸ hget)
  · exact number_of_size hcols (hname ▸ hget)
  · have hentries := exists_foldlM_putParameter_iff.1 ⟨m, h⟩
    obtain ⟨r, -, c, -, -, v, hv⟩ := hentries e he (isEntryName_iff.2 ⟨rest, hname⟩)
    exact ⟨v, hv⟩

/-! ## Both directions -/

/-- The sizes alone describe the default matrix of that shape. -/
theorem matrixOfParameters_sizes (hkeeps : Scalar.KeepsCounts α) {rows cols : Nat}
    (hrows : 1 ≤ rows ∧ rows ≤ largestSize) (hcols : 1 ≤ cols ∧ cols ≤ largestSize) :
    matrixOfParameters (⟨sizes rows cols⟩ : Parameters α) = .ok (defaultMatrix rows cols) := by
  have hnone : NamesEntries (α := α) [] := fun e he => nomatch he
  obtain ⟨hrow, hcol⟩ := numberOr_sizes (α := α) rows cols hnone
  rw [List.append_nil] at hrow hcol
  refine bind_eq_ok.2 ⟨rows, size_of_numberOr hkeeps hrows hrow,
    bind_eq_ok.2 ⟨cols, size_of_numberOr hkeeps hcols hcol, ?_⟩⟩
  exact foldlM_sizes rows cols _

/-- The parameters of a matrix of a size that parameters can ask for. -/
theorem parametersOfMatrix_eq (hkeeps : Scalar.KeepsCounts α) {m : DenseMatrix α}
    (hrows : 1 ≤ m.rows ∧ m.rows ≤ largestSize) (hcols : 1 ≤ m.cols ∧ m.cols ≤ largestSize) :
    parametersOfMatrix m =
      ⟨sizes m.rows m.cols ++ entryParameters m (defaultMatrix m.rows m.cols)⟩ := by
  have hdefault := matrixOfParameters_sizes hkeeps hrows hcols
  rw [sizes] at hdefault ⊢
  rw [parametersOfMatrix, hdefault]

/-- The parameters of a matrix have names of their own that the method looks at, and their values
are numbers. -/
theorem names_parametersOfMatrix (hkeeps : Scalar.KeepsCounts α) {m : DenseMatrix α}
    (hrows : 1 ≤ m.rows ∧ m.rows ≤ largestSize) (hcols : 1 ≤ m.cols ∧ m.cols ≤ largestSize) :
    Parameters.Distinct (parametersOfMatrix m).entries ∧
      ∀ e ∈ (parametersOfMatrix m).entries, IsName e.1 ∧ ∃ x, e.2 = .number x := by
  have hes := namesEntries_entryParameters hrows.2 hcols.2 (defaultMatrix m.rows m.cols)
  -- A size that is not the default has a parameter, which is a number with this name.
  have hsize : ∀ {name : String} {n : Nat}, ∀ e ∈ sizeParameter (α := α) name n,
      e.1 = name ∧ ∃ x, e.2 = .number x := by
    intro name n e he
    unfold sizeParameter at he
    split at he
    · cases he
    · rw [List.mem_singleton.1 he]
      exact ⟨rfl, _, rfl⟩
  rw [parametersOfMatrix_eq hkeeps hrows hcols]
  refine ⟨distinct_parameters hes (distinct_entryParameters hrows.2 hcols.2 _), fun e he => ?_⟩
  rcases List.mem_append.1 he with he | he
  · rcases List.mem_append.1 he with he | he
    · exact ⟨.inl (hsize e he).1, (hsize e he).2⟩
    · exact ⟨.inr (.inl (hsize e he).1), (hsize e he).2⟩
  · obtain ⟨r, c, hr, hc, hname⟩ := hes e he
    rw [entryParameters_eq] at he
    obtain ⟨p, -, rfl⟩ := List.mem_map.1 he
    exact ⟨.inr (.inr ⟨_, (congrArg afterElt? hname).trans (afterElt?_entryName hr hc)⟩), _, rfl⟩

/-- The parameters of a matrix, set one after the other, describe a matrix of the same shape. It is
the matrix itself when entries with the same representation are equal. -/
theorem matrixOfParameters_parametersOfMatrix (hkeeps : Scalar.KeepsCounts α)
    {m : DenseMatrix α} (hrows : 1 ≤ m.rows ∧ m.rows ≤ largestSize)
    (hcols : 1 ≤ m.cols ∧ m.cols ≤ largestSize) :
    ∃ n, matrixOfParameters (.ofList (parametersOfMatrix m).entries) = .ok n ∧
      n.rows = m.rows ∧ n.cols = m.cols ∧ (Scalar.Discrete α → n = m) := by
  have hes := namesEntries_entryParameters hrows.2 hcols.2 (defaultMatrix m.rows m.cols)
  have hdistinct : Parameters.Distinct (sizes m.rows m.cols ++ entryParameters m _) :=
    distinct_parameters hes (distinct_entryParameters hrows.2 hcols.2 _)
  rw [parametersOfMatrix_eq hkeeps hrows hcols, Parameters.ofList_of_distinct hdistinct]
  obtain ⟨hrow, hcol⟩ := numberOr_sizes m.rows m.cols hes
  obtain ⟨n, hn, hnr, hnc, hentry⟩ := foldlM_entries (defaultMatrix m.rows m.cols) hrows.2 hcols.2
    (positions m) (fun p hp => mem_positions.1 hp) (defaultMatrix m.rows m.cols) rfl rfl
  refine ⟨n, ?_, hnr, hnc, fun _ => ?_⟩
  · refine bind_eq_ok.2 ⟨m.rows, size_of_numberOr hkeeps hrows hrow,
      bind_eq_ok.2 ⟨m.cols, size_of_numberOr hkeeps hcols hcol, ?_⟩⟩
    rw [List.foldlM_append, entryParameters_eq]
    exact bind_eq_ok.2 ⟨_, foldlM_sizes m.rows m.cols _, hn⟩
  · refine DenseMatrix.ext_entry hnr hnc fun i j hi hj => ?_
    rw [hnr] at hi
    rw [hnc] at hj
    rw [hentry i hi j hj]
    -- An entry that was not put is the one of the default matrix, and that was the same.
    split
    · rfl
    · next hkept =>
      have hmem : (i, j) ∈ positions m := mem_positions.2 ⟨hi, hj⟩
      have hsame : differs m (defaultMatrix m.rows m.cols) (i, j) = false := by
        rw [← Bool.not_eq_true]
        exact fun hdiffers => hkept ⟨hmem, hdiffers⟩
      rw [differs, Bool.not_eq_false', Scalar.same_iff_eq] at hsame
      exact hsame.symm

end Method

end CoordTransform
