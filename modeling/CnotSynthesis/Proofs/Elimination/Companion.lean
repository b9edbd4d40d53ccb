import CnotSynthesis.Proofs.Elimination.Gauss
import CnotSynthesis.Proofs.Matrix.ReducedForm

/-! # What Gaussian elimination computes

* **`transcribe_recordRow`** — a matrix beside an elimination goes through the same row additions.
* **`exists_mul_gauss`** — an elimination multiplies by one invertible matrix, the matrix that it
  eliminates and the one beside it.
* **`gauss_eq_of_isReducedRowEchelon`** — full reduction reaches the only reduced matrix that an
  invertible matrix makes of the given one.
* **`Eliminated`** — rank, echelon form, reduced form and companion of an elimination;
  **`gauss_spec`** — Gaussian elimination has them all, on every matrix. -/

namespace CnotSynthesis

open ParityMatrix

/-! ## A matrix as the companion -/

namespace ParityMatrix

/-- A matrix takes part in a proper row addition. -/
theorem recordRow_of_isProper (B : ParityMatrix) {t s : ℕ}
    (h : (⟨t, s⟩ : RowAddition).IsProper B.rows) : B.recordRow t s = .ok (B.addRow t s) := by
  obtain ⟨ht, hs, hne⟩ := h
  have ht : t < B.rows := ht
  have hs : s < B.rows := hs
  have hne : t ≠ s := hne
  have hin : ¬ (B.rows ≤ t ∨ B.rows ≤ s) := by omega
  rw [recordRow, if_neg hin, addRow?, rowBreach?, if_neg (not_not.mpr ⟨ht, hs⟩), if_neg hne]
  rfl

end ParityMatrix

/-- **Recording on a matrix**: proper row additions are all carried out on it. -/
theorem transcribe_recordRow {events : List Event} {B : ParityMatrix}
    (h : ∀ op ∈ rowAdditions events, op.IsProper B.rows) :
    transcribe ParityMatrix.recordRow events B =
      ⟨B.addRows (rowAdditions events), events, none⟩ := by
  refine transcribe_eq_foldl (f := addRow) (P := fun N => N.rows = B.rows) rfl ?_
  intro op hop N hN
  have hproper : op.IsProper N.rows := hN ▸ h op hop
  exact ⟨N.recordRow_of_isProper hproper, hN⟩

/-- **One invertible factor**: elimination multiplies the matrix and its companion by it. -/
theorem exists_mul_gauss (full : Bool) (M : ParityMatrix) : ∃ T : ParityMatrix,
    T.IsInvertible ∧ T.rows = M.rows ∧ (gauss full M).1.matrix = T.mul M ∧
      ∀ B : ParityMatrix, B.rows = M.rows → gaussWith ParityMatrix.recordRow full M B =
        ⟨(gauss full M).1.matrix, T.mul B, .ok (gauss full M).2⟩ := by
  obtain ⟨ops, hproper, hlog, hmatrix⟩ := (gauss_steps full M).exists_addRows
  have hlog : rowAdditions (gauss full M).1.events = ops := hlog
  have hmatrix : (gauss full M).1.matrix = M.addRows ops := hmatrix
  -- the row additions, carried out on the identity
  have hmul : ∀ B : ParityMatrix, B.rows = M.rows →
      ((identity M.rows).addRows ops).mul B = B.addRows ops := by
    intro B hB
    rw [addRows_mul, identity_mul hB]
  refine ⟨(identity M.rows).addRows ops, ?_, rows_addRows _ _, ?_, ?_⟩
  · exact (isInvertible_identity M.rows).addRows fun op hop => (hproper op hop).2.2
  · rw [hmatrix, hmul M rfl]
  · intro B hB
    have hrecord : transcribe ParityMatrix.recordRow (gauss full M).1.events B =
        ⟨B.addRows ops, (gauss full M).1.events, none⟩ := by
      rw [transcribe_recordRow (by rw [hlog, hB]; exact hproper), hlog]
    rw [gaussWith_eq, hrecord, hlog, ← hmatrix, hmul B hB]
    rfl

/-! ## The reduced form -/

section Form

variable {M : ParityMatrix}

/-- Elimination keeps the number of rows. -/
theorem rows_gauss (full : Bool) (M : ParityMatrix) : (gauss full M).1.matrix.rows = M.rows :=
  (gauss_steps full M).rows_eq

/-- Elimination keeps the number of columns. -/
theorem cols_gauss (full : Bool) (M : ParityMatrix) : (gauss full M).1.matrix.cols = M.cols :=
  (gauss_steps full M).cols_eq

/-- **Elimination reaches an echelon form**, with or without the upward pass. -/
theorem gauss_echelonTo (full : Bool) (M : ParityMatrix) :
    (gauss full M).1.matrix.EchelonTo (Sweep.forward M).pivots (gauss full M).1.matrix.cols := by
  cases full with
  | true => exact (gauss_reducedEchelon M).echelon
  | false =>
    rw [cols_gauss, gauss_eq]
    exact Sweep.forward_echelonTo M

/-- **The reduced form is unique**: a reduced matrix that an invertible matrix makes of `M` is the
one that full reduction reaches. -/
theorem gauss_eq_of_isReducedRowEchelon {S : ParityMatrix} (hS : S.IsInvertible)
    (hrows : S.rows = M.rows)
    (h : ((S.mul M).toMatrix M.rows M.cols).IsReducedRowEchelon) :
    S.mul M = (gauss true M).1.matrix := by
  obtain ⟨T, hT, hTrows, hmatrix, _⟩ := exists_mul_gauss true M
  have hSrows : (S.mul M).rows = M.rows := hrows
  have hScols : (S.mul M).cols = M.cols := rfl
  have hreduced := reducedEchelon_leadingColumns (M := S.mul M) (by rw [hSrows, hScols]; exact h)
  -- both are reduced and have the row space of `M`
  have hspace : (S.mul M).rowSpace = (gauss true M).1.matrix.rowSpace := by
    rw [hmatrix, rowSpace_mul hS hrows, rowSpace_mul hT hTrows]
  exact (hreduced.unique (gauss_reducedEchelon M) (hSrows.trans (rows_gauss true M).symm)
    (hScols.trans (cols_gauss true M).symm) hspace).2

/-- **Full reduction reaches the identity** just from the square matrices of full rank. -/
theorem isIdentity_gauss_iff (M : ParityMatrix) :
    (gauss true M).1.matrix.isIdentity = true ↔ M.isSquare = true ∧ (gauss true M).2 = M.rows := by
  simp only [isIdentity, isSquare, Bool.and_eq_true, beq_iff_eq, rows_gauss, cols_gauss]
  refine and_congr_right fun hsquare => ⟨fun hid => ?_, fun hrank => ?_⟩
  · -- the identity has a pivot in every row
    obtain ⟨ops, hproper, _, hmatrix⟩ := (gauss_steps true M).exists_addRows
    have hreduced : (M.addRows ops).ReducedEchelon (List.range M.rows) := by
      rw [show M.addRows ops = identity M.rows from hmatrix.symm.trans hid]
      exact reducedEchelon_identity M.rows
    have hlength := (gauss_unique (fun op hop => (hproper op hop).2.2) hreduced).2
    rw [← hlength, List.length_range]
  · exact gauss_eq_identity hsquare.symm ((gauss_rank true M).symm.trans hrank)

end Form

/-- The rank does not change when rows and columns are exchanged. -/
theorem ParityMatrix.rank_transpose (M : ParityMatrix) : M.transpose.rank = M.rank := by
  rw [rank_eq_rank_toMatrix, rank_eq_rank_toMatrix, ← (M.toMatrix M.rows M.cols).rank_transpose,
    ← toMatrix_transpose]
  rfl

/-- **What an elimination of `M` leaves**, if it ends with the matrix `R` and the rank `k`: the rank
is the largest number of independent rows, and of independent columns; `R` is an echelon form of
`M`, and after full reduction the reduced one; and one invertible matrix was multiplied to `M` and
to every matrix beside it. -/
structure Eliminated (full : Bool) (M R : ParityMatrix) (k : ℕ) : Prop where
  independent_rows : IsGreatest {m | ∃ s : Finset (Fin M.rows),
    LinearIndepOn (ZMod 2) (M.toMatrix M.rows M.cols).row s ∧ s.card = m} k
  rank_eq : M.rank = k
  rank_transpose_eq : M.transpose.rank = k
  rows_eq : R.rows = M.rows
  cols_eq : R.cols = M.cols
  /-- The rows after the rank are zero. -/
  zero_below : ∀ r c, k ≤ r → R.entry r c = false
  /-- The rows before it have a first one. -/
  leads : ∀ i < k, ∃ c, R.leadingColumn? i = some c
  /-- The first ones move to the right. -/
  leads_right : ∀ i j p q, i < j → R.leadingColumn? i = some p → R.leadingColumn? j = some q → p < q
  upperTriangular : R.isUpperTriangular = true
  /-- A first one is the only one of its column. -/
  leads_alone : full = true → ∀ i c r, R.leadingColumn? i = some c → r ≠ i → R.entry r c = false
  reduced : full = true → (R.toMatrix M.rows M.cols).IsReducedRowEchelon
  /-- No other reduced matrix is made of `M` by an invertible one. -/
  reduced_unique : full = true → ∀ S : ParityMatrix, S.IsInvertible → S.rows = M.rows →
    ((S.mul M).toMatrix M.rows M.cols).IsReducedRowEchelon → S.mul M = R
  identity_iff : full = true → (R.isIdentity = true ↔ M.isSquare = true ∧ k = M.rows)
  /-- The matrix and its companions are multiplied by one invertible matrix. -/
  factor : ∃ T : ParityMatrix, T.IsInvertible ∧ T.rows = M.rows ∧ R = T.mul M ∧
    (∀ B : ParityMatrix, B.rows = M.rows →
      gaussWith ParityMatrix.recordRow full M B = ⟨R, T.mul B, .ok k⟩) ∧
    (gaussWith ParityMatrix.recordRow full M (identity M.rows)).companion.mul M = R

/-- **Gaussian elimination**, of a matrix of any shape. The rank is the largest number of
independent rows, and of independent columns. The rows after it are zero, the first ones of the rows
before it move to the right, and after full reduction each of them is the only one of its column,
which makes the result the only reduced matrix that an invertible matrix makes of `M`, and the
identity if and only if `M` is square and of full rank. A matrix beside it is multiplied by the same
invertible matrix as `M`. -/
theorem gauss_spec (full : Bool) (M : ParityMatrix) :
    Eliminated full M (gauss full M).1.matrix (gauss full M).2 := by
  have hechelon := gauss_echelonTo full M
  have hlength : (Sweep.forward M).pivots.length = (gauss full M).2 := by
    rw [length_pivots, gauss_rank]
  constructor
  case independent_rows =>
    rw [gauss_rank, M.rank_eq_rank_toMatrix]
    exact isGreatest_card_linearIndepOn _
  case rank_eq => exact (gauss_rank full M).symm
  case rank_transpose_eq => rw [M.rank_transpose, gauss_rank]
  case rows_eq => exact rows_gauss full M
  case cols_eq => exact cols_gauss full M
  case zero_below =>
    intro r c hr
    by_cases hc : c < (gauss full M).1.matrix.cols
    · exact hechelon.entry_eq_false (hlength ▸ hr) hc
    · exact ParityMatrix.entry_eq_false fun hin => hc hin.2
  case leads =>
    intro i hi
    rw [hechelon.leadingColumn?_eq]
    exact ⟨_, List.getElem?_eq_getElem (hlength ▸ hi)⟩
  case leads_right =>
    intro i j p q hij hp hq
    rw [hechelon.leadingColumn?_eq] at hp hq
    exact hechelon.pivot_lt_pivot hp hq hij
  case upperTriangular => exact hechelon.isUpperTriangular
  case leads_alone =>
    rintro rfl i c r hc hr
    rw [hechelon.leadingColumn?_eq] at hc
    exact (gauss_reducedEchelon M).cleared i c (Nat.zero_le i) hc r hr
  case reduced =>
    rintro rfl
    have := (gauss_reducedEchelon M).isReducedRowEchelon
    rwa [rows_gauss, cols_gauss] at this
  case reduced_unique =>
    rintro rfl S
    exact gauss_eq_of_isReducedRowEchelon
  case identity_iff =>
    rintro rfl
    exact isIdentity_gauss_iff M
  case factor =>
    obtain ⟨T, hT, hrows, hmatrix, hcompanion⟩ := exists_mul_gauss full M
    refine ⟨T, hT, hrows, hmatrix, hcompanion, ?_⟩
    rw [hcompanion (identity M.rows) rfl, mul_identity (hT.cols_eq.trans hrows)]
    exact hmatrix.symm

end CnotSynthesis
