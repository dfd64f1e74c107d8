import CoordTransform.Proofs.Double
import CoordTransform.Proofs.Double.WholeNumbers
import CoordTransform.Proofs.Method.Matrix

/-!
# What the Parameters of a Matrix List

A matrix is written as its sizes, unless they are three, and the entries that differ from the
default matrix of its shape. That default is what the sizes alone describe, so nothing is lost:
the parameters describe the matrix itself, bit for bit.
-/

namespace CoordTransform.Method

section

variable {α : Type} [Scalar α]

/-- The sizes, then the entries that differ from the default matrix, by rows. -/
theorem entries_parametersOfMatrix (hkeeps : Scalar.KeepsCounts α) {m : DenseMatrix α}
    (hrows : 1 ≤ m.rows ∧ m.rows ≤ largestSize) (hcols : 1 ≤ m.cols ∧ m.cols ≤ largestSize) :
    (parametersOfMatrix m).entries = sizes m.rows m.cols ++
      ((positions m).filter (differs m (defaultMatrix m.rows m.cols))).map (entryParameter m) := by
  rw [parametersOfMatrix_eq hkeeps hrows hcols, entryParameters_eq]

theorem sizeParameter_eq (name : String) (n : Nat) : sizeParameter (α := α) name n =
    if n = 3 then [] else [(name, .number (Scalar.ofNat n))] := by
  unfold sizeParameter
  simp only [beq_iff_eq]

/-- Setting the parameters of a matrix one after the other gives the same list, because no two of
their names are alike. -/
theorem ofList_entries_parametersOfMatrix (hkeeps : Scalar.KeepsCounts α) {m : DenseMatrix α}
    (hrows : 1 ≤ m.rows ∧ m.rows ≤ largestSize) (hcols : 1 ≤ m.cols ∧ m.cols ≤ largestSize) :
    .ofList (parametersOfMatrix m).entries = parametersOfMatrix m :=
  Parameters.ofList_of_distinct (names_parametersOfMatrix hkeeps hrows hcols).1

/-- The entries of a default matrix: those of the identity, but with `0 … 0 1` as last row when
the matrix is not square. -/
theorem entry_defaultMatrix {rows cols r c : Nat} (hr : r < rows) (hc : c < cols) :
    (defaultMatrix rows cols : DenseMatrix α).entry r c =
      if rows ≠ cols ∧ r + 1 = rows then if c + 1 = cols then 1 else 0
      else if r = c then 1 else 0 := by
  rw [defaultMatrix, DenseMatrix.entry_ofFn _ hr hc]
  simp only [Bool.and_eq_true, bne_iff_ne, beq_iff_eq]

end

/-- A matrix of doubles with up to 32 rows and columns is described by its parameters, bit for bit
and with the same shape. They list each size that is not three, and by rows exactly the entries
whose bits differ from those of the default matrix, which is the one that the sizes alone
describe. No two names are alike, so setting the list one by one changes nothing. -/
theorem matrixOfParameters_lists (m : DenseMatrix Float) (hrows : 1 ≤ m.rows ∧ m.rows ≤ 32)
    (hcols : 1 ≤ m.cols ∧ m.cols ≤ 32) :
    matrixOfParameters (parametersOfMatrix m) = .ok m ∧
    .ofList (parametersOfMatrix m).entries = parametersOfMatrix m ∧
    ∃ d : DenseMatrix Float, matrixOfParameters ⟨sizes m.rows m.cols⟩ = .ok d ∧
      (d.rows = m.rows ∧ d.cols = m.cols ∧
        ∀ r < m.rows, ∀ c < m.cols, d.entry r c =
          if m.rows ≠ m.cols ∧ r + 1 = m.rows then if c + 1 = m.cols then 1 else 0
          else if r = c then 1 else 0) ∧
      (parametersOfMatrix m).entries =
        (if m.rows = 3 then [] else [("num_row", .number (Float.ofNat m.rows))]) ++
        (if m.cols = 3 then [] else [("num_col", .number (Float.ofNat m.cols))]) ++
        ((List.range m.rows ×ˢ List.range m.cols).filter fun p =>
          (m.entry p.1 p.2).toBits ≠ (d.entry p.1 p.2).toBits).map fun p =>
            (entryName p.1 p.2, .number (m.entry p.1 p.2)) := by
  have hlist := ofList_entries_parametersOfMatrix Double.keepsCounts hrows hcols
  obtain ⟨n, hn, -, -, heq⟩ :=
    matrixOfParameters_parametersOfMatrix Double.keepsCounts hrows hcols
  rw [hlist, heq inferInstance] at hn
  refine ⟨hn, hlist, defaultMatrix m.rows m.cols,
    matrixOfParameters_sizes Double.keepsCounts hrows hcols,
    ⟨rfl, rfl, fun r hr c hc => entry_defaultMatrix hr hc⟩, ?_⟩
  -- For doubles, to differ is to have different bits.
  have hdiffers : differs m (defaultMatrix m.rows m.cols) = fun p =>
      decide ((m.entry p.1 p.2).toBits ≠
        ((defaultMatrix m.rows m.cols : DenseMatrix Float).entry p.1 p.2).toBits) := by
    funext p
    exact (decide_not ..).symm
  rw [entries_parametersOfMatrix Double.keepsCounts hrows hcols, hdiffers, sizes, sizeParameter_eq,
    sizeParameter_eq]
  rfl

/-- A matrix that is not square, with a negative zero, an infinity and an undefined entry. -/
def unusualMatrix : DenseMatrix Float :=
  .ofFn 2 4 fun
    | 0, 0 => 1
    | 0, 1 => -0
    | 0, 2 => 1 / 0
    | 1, 3 => 0 / 0
    | _, _ => 0

/-- Its parameters list the sizes and three entries, and describe it again. -/
theorem matrixOfParameters_lists_unusual :
    (1 ≤ unusualMatrix.rows ∧ unusualMatrix.rows ≤ 32) ∧
    (1 ≤ unusualMatrix.cols ∧ unusualMatrix.cols ≤ 32) ∧
    matrixOfParameters (parametersOfMatrix unusualMatrix) = .ok unusualMatrix ∧
    (parametersOfMatrix unusualMatrix).entries.map Prod.fst =
      ["num_row", "num_col", "elt_0_1", "elt_0_2", "elt_1_3"] := by
  have hrows : 1 ≤ unusualMatrix.rows ∧ unusualMatrix.rows ≤ 32 := by decide
  have hcols : 1 ≤ unusualMatrix.cols ∧ unusualMatrix.cols ≤ 32 := by decide
  exact ⟨hrows, hcols, (matrixOfParameters_lists unusualMatrix hrows hcols).1, by decide +kernel⟩

end CoordTransform.Method
