import CnotSynthesis.Proofs.Matrix.Echelon

/-! # Triangular and reduced matrices

* **`ParityMatrix.isUpperTriangular_iff`** — the computed test says that only zeros stand below the
  diagonal; a matrix in echelon form passes it (**`EchelonTo.isUpperTriangular`**).
* **`ParityMatrix.rowSpace_mul`** — a product has the row space of its second factor if the first
  one is invertible.
* **`M.leadingColumns`** — the first ones of the rows;
  **`ParityMatrix.reducedEchelon_leadingColumns`** — a matrix that is reduced in the usual sense is
  in reduced echelon form with these pivots.
* **`isGreatest_card_linearIndepOn`** — the rank is the largest number of independent rows. -/

namespace CnotSynthesis

namespace ParityMatrix

variable {M : ParityMatrix} {pivots : List ℕ}

/-! ## Triangular matrices -/

/-- A one stands inside the matrix. -/
theorem lt_of_entry {r c : ℕ} (h : M.entry r c = true) : r < M.rows ∧ c < M.cols := by
  by_contra hout
  rw [entry_eq_false hout] at h
  cases h

/-- **The test for triangular matrices**: only zeros stand below the diagonal. -/
theorem isUpperTriangular_iff :
    M.isUpperTriangular = true ↔ ∀ r c, M.entry r c = true → r ≤ c := by
  unfold isUpperTriangular
  simp only [List.all_eq_true, decide_eq_true_eq]
  constructor
  · intro h r c hone
    -- the one belongs to a packed row, and the test goes through the ones of each
    rw [entry_eq] at hone
    cases hrow : M.data[r]? with
    | none => simp [hrow] at hone
    | some row =>
      have hbit : row.bit c = true := by simpa [hrow] using hone
      have hc : c < M.cols := by
        by_contra hc
        rw [row.bit_eq_false (by omega)] at hbit
        cases hbit
      refine h (row, r) (List.mem_zipIdx_iff_getElem?.mpr hrow) c ?_
      simp [BitRow.ones_eq, hc, hbit]
  · rintro h ⟨row, r⟩ hmem c hc
    have hrow : M.data[r]? = some row := List.mem_zipIdx_iff_getElem?.mp hmem
    have hbit : row.bit c = true := by
      rw [BitRow.ones_eq] at hc
      exact (List.mem_filter.mp hc).2
    apply h r c
    rw [entry_eq, hrow]
    exact hbit

/-- Ascending pivots: pivot `i` is not before column `i`. -/
theorem EchelonTo.le_pivot {c : ℕ} (h : M.EchelonTo pivots c) {i : ℕ} :
    ∀ {p}, pivots[i]? = some p → i ≤ p := by
  induction i with
  | zero => exact fun _ => Nat.zero_le _
  | succ i ih =>
    intro p hp
    have hlt : i < pivots.length := by
      have := (List.getElem?_eq_some_iff.mp hp).1
      omega
    -- the pivot before is at least `i`, and this one comes later
    have hprevious := List.getElem?_eq_getElem hlt
    have := ih hprevious
    have := h.pivot_lt_pivot hprevious hp (Nat.lt_succ_self i)
    omega

/-- **Echelon form is triangular.** -/
theorem EchelonTo.isUpperTriangular (h : M.EchelonTo pivots M.cols) :
    M.isUpperTriangular = true := by
  rw [isUpperTriangular_iff]
  intro r c hone
  obtain ⟨p, hp, hpc⟩ := h.lead (lt_of_entry hone).2 hone
  exact (h.le_pivot hp).trans hpc

/-! ## Row spaces of products -/

/-- Rows of a product are sums of rows of its second factor. -/
theorem row_mul (S M : ParityMatrix) (r : ℕ) :
    (S.mul M).row r = ∑ k ∈ Finset.range S.cols, S.row r k • M.row k := by
  funext c
  simp [row_apply, bitValue_entry_mul]

/-- The rows of a product are sums of rows of its second factor. -/
theorem rowSpace_mul_le (S M : ParityMatrix) : (S.mul M).rowSpace ≤ M.rowSpace := by
  refine Submodule.span_le.mpr ?_
  rintro _ ⟨r, rfl⟩
  rw [row_mul]
  exact Submodule.sum_mem _ fun k _ => Submodule.smul_mem _ _ (M.row_mem_rowSpace k)

/-- **An invertible factor in front does not change the row space.** -/
theorem rowSpace_mul {S : ParityMatrix} (hS : S.IsInvertible) (hrows : S.rows = M.rows) :
    (S.mul M).rowSpace = M.rowSpace := by
  obtain ⟨hsquare, T, _, hTc, _, hTS⟩ := hS
  refine le_antisymm (rowSpace_mul_le S M) ?_
  -- the inverse leads back
  have hback : T.mul (S.mul M) = M := by
    rw [← mul_mul hTc, hTS, identity_mul hrows.symm]
  have := rowSpace_mul_le T (S.mul M)
  rwa [hback] at this

/-! ## Leading columns -/

/-- The column of the first one of row `r`, if the row has a one. -/
def leadingColumn? (M : ParityMatrix) (r : ℕ) : Option ℕ := (List.range M.cols).find? (M.entry r)

/-- The columns of the first ones of the rows, top to bottom; rows without a one are passed over. -/
def leadingColumns (M : ParityMatrix) : List ℕ := (List.range M.rows).filterMap M.leadingColumn?

/-- The leading column is the first one with a one. -/
theorem leadingColumn?_eq_some_iff {r c : ℕ} :
    M.leadingColumn? r = some c ↔ M.entry r c = true ∧ ∀ j < c, M.entry r j = false := by
  unfold leadingColumn?
  rw [List.find?_range_eq_some]
  constructor
  · rintro ⟨hone, _, hbefore⟩
    exact ⟨hone, fun j hj => by simpa using hbefore j hj⟩
  · rintro ⟨hone, hbefore⟩
    exact ⟨hone, by simpa using (lt_of_entry hone).2, fun j hj => by simpa using hbefore j hj⟩

/-- In echelon form the first ones are the pivots. -/
theorem EchelonTo.leadingColumn?_eq (h : M.EchelonTo pivots M.cols) (i : ℕ) :
    M.leadingColumn? i = pivots[i]? := by
  cases hi : pivots[i]? with
  | some p => exact leadingColumn?_eq_some_iff.mpr ⟨h.pivot hi, fun j => h.entry_before hi⟩
  | none =>
    rw [Option.eq_none_iff_forall_ne_some]
    intro c hc
    have hone := (leadingColumn?_eq_some_iff.mp hc).1
    obtain ⟨p, hp, _⟩ := h.lead (lt_of_entry hone).2 hone
    cases hi.symm.trans hp

/-- A row with a one has a first one. -/
theorem exists_leadingColumn? {r j : ℕ} (h : M.entry r j = true) :
    ∃ c ≤ j, M.leadingColumn? r = some c := by
  have hex : ∃ c, M.entry r c = true := ⟨j, h⟩
  refine ⟨Nat.find hex, Nat.find_min' hex h, leadingColumn?_eq_some_iff.mpr ⟨Nat.find_spec hex, ?_⟩⟩
  intro i hi
  simpa using Nat.find_min hex hi

/-- What a partial function lists, if it is defined on a beginning of the numbers. -/
theorem getElem?_filterMap_range {f : ℕ → Option ℕ} (n : ℕ)
    (hf : ∀ i j, i < j → j < n → f j ≠ none → f i ≠ none) :
    ∀ i, ((List.range n).filterMap f)[i]? = if i < n then f i else none := by
  induction n with
  | zero => simp
  | succ n ih =>
    intro i
    have ih := ih fun i j hij hj => hf i j hij (Nat.lt_succ_of_lt hj)
    have hle : ((List.range n).filterMap f).length ≤ n := by
      simpa using List.length_filterMap_le f (List.range n)
    rw [List.range_succ, List.filterMap_append]
    cases hn : f n with
    | none =>
      -- the number is passed over
      rw [show [n].filterMap f = [] by simp [hn], List.append_nil, ih]
      rcases Nat.lt_trichotomy i n with hlt | rfl | hgt
      · simp [hlt, Nat.lt_succ_of_lt hlt]
      · simp [hn]
      · rw [if_neg (by omega), if_neg (by omega)]
    | some c =>
      -- all earlier numbers are listed, so this one stands at its own place
      have hall : ((List.range n).filterMap f).length = n := by
        refine le_antisymm hle (Nat.le_of_not_lt fun hshort => ?_)
        have hnone := ih ((List.range n).filterMap f).length
        rw [List.getElem?_eq_none le_rfl, if_pos hshort] at hnone
        exact hf _ n hshort (Nat.lt_succ_self n) (by simp [hn]) hnone.symm
      rw [show [n].filterMap f = [c] by simp [hn], List.getElem?_append, hall]
      rcases Nat.lt_trichotomy i n with hlt | rfl | hgt
      · simp [hlt, Nat.lt_succ_of_lt hlt, ih]
      · simp [hn]
      · rw [if_neg (by omega), if_neg (by omega), List.getElem?_eq_none (by simp; omega)]

/-- The first one of a row, in the view modulo 2. -/
theorem isLeadingEntry_iff {i : Fin M.rows} {c : Fin M.cols} :
    (M.toMatrix M.rows M.cols).IsLeadingEntry i c ↔ M.leadingColumn? i = some c.val := by
  rw [leadingColumn?_eq_some_iff, Matrix.IsLeadingEntry, and_comm]
  refine and_congr (by simp [toMatrix_apply]) ?_
  constructor
  · intro h j hj
    simpa [toMatrix_apply] using h ⟨j, hj.trans c.isLt⟩ hj
  · intro h j hj
    simpa [toMatrix_apply] using h j hj

/-- A leading column is one of the matrix, in a row of it. -/
theorem lt_of_leadingColumn? {r c : ℕ} (h : M.leadingColumn? r = some c) :
    r < M.rows ∧ c < M.cols :=
  lt_of_entry (leadingColumn?_eq_some_iff.mp h).1

/-- In row echelon form the first ones move to the right from row to row. -/
theorem exists_leadingColumn?_lt (h : (M.toMatrix M.rows M.cols).IsRowEchelon) {i j c : ℕ}
    (hij : i < j) (hc : M.leadingColumn? j = some c) :
    ∃ p, M.leadingColumn? i = some p ∧ p < c := by
  obtain ⟨hj, hcc⟩ := lt_of_leadingColumn? hc
  by_contra hnone
  -- a row above without an earlier first one forces a zero at the first one of row `j`
  have hzero : M.toMatrix M.rows M.cols ⟨j, hj⟩ ⟨c, hcc⟩ = 0 := by
    apply h (show (⟨i, hij.trans hj⟩ : Fin M.rows) < ⟨j, hj⟩ from hij)
    intro k hk
    rw [toMatrix_apply, bitValue_eq_zero, Bool.eq_false_iff]
    intro hone
    obtain ⟨p, hpk, hp⟩ := exists_leadingColumn? hone
    exact hnone ⟨p, hp, lt_of_le_of_lt hpk hk⟩
  rw [toMatrix_apply, bitValue_eq_zero] at hzero
  exact Bool.false_ne_true (hzero.symm.trans (leadingColumn?_eq_some_iff.mp hc).1)

/-- In row echelon form the rows without a one stand last, so that entry `i` belongs to row `i`. -/
theorem getElem?_leadingColumns (h : (M.toMatrix M.rows M.cols).IsRowEchelon) (i : ℕ) :
    M.leadingColumns[i]? = M.leadingColumn? i := by
  unfold leadingColumns
  rw [getElem?_filterMap_range]
  · by_cases hi : i < M.rows
    · rw [if_pos hi]
    · rw [if_neg hi, eq_comm, Option.eq_none_iff_forall_ne_some]
      exact fun c hc => hi (lt_of_leadingColumn? hc).1
  · intro i j hij _ hj
    obtain ⟨c, hc⟩ := Option.ne_none_iff_exists'.mp hj
    obtain ⟨p, hp, _⟩ := exists_leadingColumn?_lt h hij hc
    simp [hp]

/-- **Row echelon form**, with the first ones as the pivots. -/
theorem echelonTo_leadingColumns (h : (M.toMatrix M.rows M.cols).IsRowEchelon) :
    M.EchelonTo M.leadingColumns M.cols where
  sorted := by
    rw [List.pairwise_iff_getElem]
    intro i j hi hj hij
    have hj := (getElem?_leadingColumns h j).symm.trans (List.getElem?_eq_getElem hj)
    obtain ⟨p, hp, hlt⟩ := exists_leadingColumn?_lt h hij hj
    have hi := (getElem?_leadingColumns h i).symm.trans (List.getElem?_eq_getElem hi)
    rwa [Option.some.inj (hp.symm.trans hi)] at hlt
  lt := by
    intro p hp
    obtain ⟨i, hi⟩ := List.mem_iff_getElem?.mp hp
    exact (lt_of_leadingColumn? ((getElem?_leadingColumns h i).symm.trans hi)).2
  length_le := by
    simpa [leadingColumns] using List.length_filterMap_le M.leadingColumn? (List.range M.rows)
  pivot := by
    intro i p hi
    exact (leadingColumn?_eq_some_iff.mp ((getElem?_leadingColumns h i).symm.trans hi)).1
  lead := by
    intro r j _ hone
    obtain ⟨p, hpj, hp⟩ := exists_leadingColumn? hone
    exact ⟨p, (getElem?_leadingColumns h r).trans hp, hpj⟩

/-- **A reduced matrix is in reduced echelon form**, with the first ones as the pivots. -/
theorem reducedEchelon_leadingColumns (h : (M.toMatrix M.rows M.cols).IsReducedRowEchelon) :
    M.ReducedEchelon M.leadingColumns := by
  refine ⟨echelonTo_leadingColumns h.isRowEchelon, ?_⟩
  intro i p _ hi r hr
  have hp := (getElem?_leadingColumns h.isRowEchelon i).symm.trans hi
  obtain ⟨hirows, hpcols⟩ := lt_of_leadingColumn? hp
  by_cases hrrows : r < M.rows
  · have hlead : (M.toMatrix M.rows M.cols).IsLeadingEntry ⟨i, hirows⟩ ⟨p, hpcols⟩ :=
      isLeadingEntry_iff.mpr hp
    have hne : (⟨r, hrrows⟩ : Fin M.rows) ≠ ⟨i, hirows⟩ := by simpa using hr
    simpa [toMatrix_apply] using h.eq_zero_of_ne_of_isLeadingEntry hne hlead
  · exact ParityMatrix.entry_eq_false fun hin => hrrows hin.1

end ParityMatrix

/-! ## Independent rows -/

/-- **The rank is the largest number of independent rows.** -/
theorem isGreatest_card_linearIndepOn {m n : ℕ} (A : Matrix (Fin m) (Fin n) (ZMod 2)) :
    IsGreatest {k | ∃ s : Finset (Fin m), LinearIndepOn (ZMod 2) A.row s ∧ s.card = k} A.rank := by
  -- independent rows are as many as the dimension of their span
  have hcard : ∀ s : Finset (Fin m), LinearIndepOn (ZMod 2) A.row s →
      s.card = Module.finrank (ZMod 2) (Submodule.span (ZMod 2) (A.row '' s)) := by
    intro s hs
    have hspan := finrank_span_eq_card hs
    rw [← Set.image_eq_range] at hspan
    simpa using hspan.symm
  rw [A.rank_eq_finrank_span_row]
  constructor
  · obtain ⟨b, _, _, hspan, hb⟩ := exists_linearIndepOn_extension
      (linearIndepOn_empty (ZMod 2) A.row) (Set.empty_subset Set.univ)
    have hb' : LinearIndepOn (ZMod 2) A.row b.toFinite.toFinset := by simpa using hb
    refine ⟨b.toFinite.toFinset, hb', ?_⟩
    rw [Set.image_univ] at hspan
    have hall : Submodule.span (ZMod 2) (A.row '' b) = Submodule.span (ZMod 2) (Set.range A.row) :=
      le_antisymm (Submodule.span_mono (Set.image_subset_range _ _)) (Submodule.span_le.mpr hspan)
    rw [hcard _ hb', Set.Finite.coe_toFinset, hall]
  · rintro k ⟨s, hs, rfl⟩
    rw [hcard s hs]
    exact Submodule.finrank_mono (Submodule.span_mono (Set.image_subset_range _ _))

end CnotSynthesis
