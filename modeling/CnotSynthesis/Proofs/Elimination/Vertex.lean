import CnotSynthesis.Elimination.Vertex
import CnotSynthesis.Proofs.Elimination.Clearing
import CnotSynthesis.Proofs.Elimination.Gauss
import CnotSynthesis.Proofs.Permutation

/-! # Vertex elimination

Rows and columns of an invertible matrix are set aside in pairs. Whatever pair is chosen, clearing
it fails or leaves a partial elimination; it fails only if one of the two does not remain or the
remaining rows are not connected.

* **`Remaining.Fits`** — what holds between two pairs: a column set aside is the unit vector of its
  row, and a row set aside is zero on the remaining columns.
* **`Remaining.Offers`** — a pair that can be cleared.
* **`Reduction.clearColumn_yields`**, **`Reduction.matchingRows_spec`**,
  **`Reduction.clearRow_yields`** — the column of a pair becomes a unit vector, some remaining rows
  add up to its row, and adding them clears it.
* **`Reduction.clearPair_yields`** — one pair keeps `Remaining.Fits`.
* **`PairStrategy.Guides`** — a strategy that chooses pairs that can be cleared, such as any that
  picks among its candidates (**`guides_of_picks`**).
* **`Reduction.eliminateAll_yields`** — all pairs leave a permutation matrix; with a strategy that
  guides, the elimination goes through. -/

namespace CnotSynthesis

open Work ParityMatrix

/-! ## Ones of an invertible matrix -/

/-- The ones of a column. -/
theorem ParityMatrix.mem_colOnes {M : ParityMatrix} {r c : ℕ} :
    r ∈ M.colOnes c ↔ M.entry r c = true := by
  unfold colOnes
  rw [List.mem_filter, List.mem_range]
  refine ⟨fun h => h.2, fun h => ⟨?_, h⟩⟩
  by_contra hr
  rw [M.entry_eq_false fun hin => hr hin.1] at h
  cases h

/-- The ones of a column together with a row, which is added only where it has none. -/
theorem ParityMatrix.mem_colOnes_with {M : ParityMatrix} {row column r : ℕ} :
    r ∈ (if (M.colOnes column).contains row then M.colOnes column
      else M.colOnes column ++ [row]) ↔ r = row ∨ M.entry r column = true := by
  rw [← mem_colOnes]
  split
  · next hcontains =>
    have hones := List.contains_iff_mem.mp hcontains
    exact ⟨.inr, fun hr => hr.elim (fun heq => heq ▸ hones) id⟩
  · rw [List.mem_append, List.mem_singleton]
    exact or_comm

/-- No row of an invertible matrix is zero. -/
theorem ParityMatrix.IsInvertible.exists_one_row {M : ParityMatrix} (h : M.IsInvertible) {r : ℕ}
    (hr : r < M.rows) : ∃ c, c < M.rows ∧ M.entry r c = true := by
  by_contra hnone
  have hle : [r].length ≤ ([] : List ℕ).length := by
    refine h.length_le (List.nodup_singleton r) (by simpa using hr) List.nodup_nil (by simp) ?_
    intro r' hr' c hc _
    rw [List.mem_singleton.mp hr', Bool.eq_false_iff]
    exact fun hone => hnone ⟨c, hc, hone⟩
  simp at hle

/-- No column of an invertible matrix is zero. -/
theorem ParityMatrix.IsInvertible.exists_one_column {M : ParityMatrix} (h : M.IsInvertible) {c : ℕ}
    (hc : c < M.rows) : ∃ r, M.entry r c = true := by
  obtain ⟨r, _, hone⟩ := h.transpose.exists_one_row (r := c) (by rwa [rows_transpose, h.cols_eq])
  rw [entry_transpose] at hone
  exact ⟨r, hone⟩

/-- Without repetitions, taking out an element leaves one less. -/
theorem length_filter_ne {xs : List ℕ} (h : xs.Nodup) {a : ℕ} (ha : a ∈ xs) :
    (xs.filter (· != a)).length + 1 = xs.length := by
  have herase : xs.filter (· != a) = xs.erase a := by
    rw [h.erase_eq_filter]
  rw [herase, List.length_erase_of_mem ha]
  have := List.length_pos_of_mem ha
  omega

/-! ## What holds between two pairs -/

/-- **A partial elimination** of a matrix on a graph. -/
structure Remaining.Fits (p : Remaining) (G : CouplingGraph) (M : ParityMatrix) : Prop where
  invertible : M.IsInvertible
  size : G.size = M.rows
  nodup_rows : p.rows.Nodup
  rows_lt : ∀ r ∈ p.rows, r < M.rows
  nodup_columns : p.columns.Nodup
  columns_lt : ∀ c ∈ p.columns, c < M.rows
  length_eq : p.rows.length = p.columns.length
  length_output : p.output.length = M.rows
  /-- The row of a column set aside has been set aside too. -/
  output_lt : ∀ c, c < M.rows → c ∉ p.columns →
    p.output.getD c 0 < M.rows ∧ p.output.getD c 0 ∉ p.rows
  output_inj : ∀ c d, c < M.rows → d < M.rows → c ∉ p.columns → d ∉ p.columns →
    p.output.getD c 0 = p.output.getD d 0 → c = d
  /-- A column set aside is a unit vector. -/
  unit : ∀ c, c < M.rows → c ∉ p.columns → ∀ r, M.entry r c = decide (r = p.output.getD c 0)
  /-- A row set aside is zero on the remaining columns. -/
  clear : ∀ r, r ∉ p.rows → ∀ c ∈ p.columns, M.entry r c = false

/-- The remaining rows are connected. -/
def Remaining.Connected (p : Remaining) (G : CouplingGraph) : Prop := G.ConnectedOn {q | q ∈ p.rows}

/-- **A pair that can be cleared**: both remain, and the remaining rows are connected. -/
structure Remaining.Offers (p : Remaining) (G : CouplingGraph) (row column : ℕ) : Prop where
  row_mem : row ∈ p.rows
  column_mem : column ∈ p.columns
  connected : p.Connected G

/-- At first all qubits remain, and they are connected. -/
theorem Remaining.connected_start {G : CouplingGraph} {n : ℕ} (hsize : G.size = n)
    (hG : G.isConnected = true) : (Remaining.start n).Connected G := by
  have := CouplingGraph.isConnected_iff.mp hG
  rw [hsize] at this
  simpa [Remaining.Connected, Remaining.start] using this

namespace Remaining.Fits

variable {p : Remaining} {G : CouplingGraph} {M : ParityMatrix}

/-- At first all rows and columns of an invertible matrix remain. -/
theorem start (hM : M.IsInvertible) (hsize : G.size = M.rows) :
    (Remaining.start M.rows).Fits G M where
  invertible := hM
  size := hsize
  nodup_rows := List.nodup_range
  rows_lt := fun _ hr => List.mem_range.mp hr
  nodup_columns := List.nodup_range
  columns_lt := fun _ hc => List.mem_range.mp hc
  length_eq := rfl
  length_output := List.length_replicate
  output_lt := fun _ hc hnot => absurd (List.mem_range.mpr hc) hnot
  output_inj := fun _ _ hc _ hnot => absurd (List.mem_range.mpr hc) hnot
  unit := fun _ hc hnot => absurd (List.mem_range.mpr hc) hnot
  clear := fun _ hr _ _ => M.entry_eq_false fun hin => hr (List.mem_range.mpr hin.1)

/-- A remaining row is zero on the columns set aside. -/
theorem entry_eq_false (h : p.Fits G M) {r c : ℕ} (hr : r ∈ p.rows) (hc : c < M.rows)
    (hnot : c ∉ p.columns) : M.entry r c = false := by
  rw [h.unit c hc hnot]
  refine decide_eq_false ?_
  rintro rfl
  exact (h.output_lt c hc hnot).2 hr

/-- A one of a remaining column is in a remaining row. -/
theorem mem_rows_of_entry (h : p.Fits G M) {r c : ℕ} (hc : c ∈ p.columns)
    (hone : M.entry r c = true) : r ∈ p.rows := by
  by_contra hr
  rw [h.clear r hr c hc] at hone
  cases hone

/-- A remaining column has a one in a remaining row. -/
theorem exists_one_column (h : p.Fits G M) {c : ℕ} (hc : c ∈ p.columns) :
    ∃ r ∈ p.rows, M.entry r c = true := by
  obtain ⟨r, hone⟩ := h.invertible.exists_one_column (h.columns_lt c hc)
  exact ⟨r, h.mem_rows_of_entry hc hone, hone⟩

/-- A remaining row has a one in a remaining column. -/
theorem exists_one_row (h : p.Fits G M) {r : ℕ} (hr : r ∈ p.rows) :
    ∃ c ∈ p.columns, M.entry r c = true := by
  obtain ⟨c, hc, hone⟩ := h.invertible.exists_one_row (h.rows_lt r hr)
  refine ⟨c, ?_, hone⟩
  by_contra hnot
  rw [h.entry_eq_false hr hc hnot] at hone
  cases hone

/-- **A pair set aside**: its column is a unit vector, its row is zero on the other remaining
columns, and what was set aside before is as it was. -/
theorem remove (h : p.Fits G M) {N : ParityMatrix} {row column : ℕ} (hrow : row ∈ p.rows)
    (hcolumn : column ∈ p.columns) (hrows : N.rows = M.rows) (hN : N.IsInvertible)
    (hunit : ∀ r, N.entry r column = decide (r = row))
    (hkeep : ∀ c, c < M.rows → c ∉ p.columns → ∀ r, N.entry r c = M.entry r c)
    (hsame : ∀ r, r ∉ p.rows → ∀ c, N.entry r c = M.entry r c)
    (hclear : ∀ c ∈ p.columns.filter (· != column), N.entry row c = false) :
    (p.remove row column).Fits G N := by
  have hcolumns : ∀ {c}, c ∈ p.columns.filter (· != column) ↔ c ∈ p.columns ∧ c ≠ column := by simp
  have hremaining : ∀ {r}, r ∈ p.rows.filter (· != row) ↔ r ∈ p.rows ∧ r ≠ row := by simp
  have hlt : column < p.output.length := by rw [h.length_output]; exact h.columns_lt column hcolumn
  have hself : (p.output.set column row).getD column 0 = row := by
    simp [List.getD_eq_getElem?_getD, hlt]
  have hother : ∀ c, c ≠ column → (p.output.set column row).getD c 0 = p.output.getD c 0 := by
    intro c hc
    simp [List.getD_eq_getElem?_getD, List.getElem?_set_ne (Ne.symm hc)]
  -- a column set aside is the new one or an old one
  have hcases : ∀ {c}, c ∉ p.columns.filter (· != column) →
      c = column ∨ c ≠ column ∧ c ∉ p.columns := by
    intro c hc
    by_cases heq : c = column
    · exact .inl heq
    · exact .inr ⟨heq, fun hmem => hc (hcolumns.mpr ⟨hmem, heq⟩)⟩
  have hlenr := length_filter_ne h.nodup_rows hrow
  have hlenc := length_filter_ne h.nodup_columns hcolumn
  exact {
    invertible := hN
    size := h.size.trans hrows.symm
    nodup_rows := h.nodup_rows.filter _
    rows_lt := fun r hr => hrows ▸ h.rows_lt r (hremaining.mp hr).1
    nodup_columns := h.nodup_columns.filter _
    columns_lt := fun c hc => hrows ▸ h.columns_lt c (hcolumns.mp hc).1
    length_eq := by
      have := h.length_eq
      change (p.rows.filter (· != row)).length = (p.columns.filter (· != column)).length
      omega
    length_output := by
      rw [hrows, ← h.length_output]
      exact List.length_set
    output_lt := by
      intro c hc hnot
      rw [hrows] at hc ⊢
      change (p.output.set column row).getD c 0 < _ ∧ (p.output.set column row).getD c 0 ∉ _
      rcases hcases hnot with rfl | ⟨hne, hnot⟩
      · rw [hself]
        exact ⟨h.rows_lt row hrow, fun hmem => (hremaining.mp hmem).2 rfl⟩
      · rw [hother c hne]
        exact ⟨(h.output_lt c hc hnot).1,
          fun hmem => (h.output_lt c hc hnot).2 (hremaining.mp hmem).1⟩
    output_inj := by
      intro c d hc hd hcnot hdnot heq
      rw [hrows] at hc hd
      change (p.output.set column row).getD c 0 = (p.output.set column row).getD d 0 at heq
      rcases hcases hcnot with hceq | ⟨hcne, hcold⟩
      · rcases hcases hdnot with hdeq | ⟨hdne, hdold⟩
        · rw [hceq, hdeq]
        · rw [hceq, hself, hother d hdne] at heq
          exact absurd (heq ▸ hrow) (h.output_lt d hd hdold).2
      · rcases hcases hdnot with hdeq | ⟨hdne, hdold⟩
        · rw [hdeq, hself, hother c hcne] at heq
          exact absurd (heq ▸ hrow) (h.output_lt c hc hcold).2
        · rw [hother c hcne, hother d hdne] at heq
          exact h.output_inj c d hc hd hcold hdold heq
    unit := by
      intro c hc hnot r
      rw [hrows] at hc
      change N.entry r c = decide (r = (p.output.set column row).getD c 0)
      rcases hcases hnot with rfl | ⟨hne, hnot⟩
      · rw [hself]
        exact hunit r
      · rw [hother c hne, hkeep c hc hnot]
        exact h.unit c hc hnot r
    clear := by
      intro r hr c hc
      by_cases heq : r = row
      · rw [heq]
        exact hclear c hc
      · have hr : r ∉ p.rows := fun hmem => hr (hremaining.mpr ⟨hmem, heq⟩)
        rw [hsame r hr]
        exact h.clear r hr c (hcolumns.mp hc).1 }

end Remaining.Fits

namespace Reduction

variable {G : CouplingGraph} {F : Prop} {w : Work} {p : Remaining}

/-! ## The column of a pair -/

/-- **A column that does not remain** cannot be cleared: its one is in a row set aside, or it is
outside the matrix and has none. -/
theorem clearColumn_gone (h : p.Fits G w.matrix) (row : ℕ) {column : ℕ}
    (hcolumn : column ∉ p.columns) (hF : F) {Q : Unit → Work → Prop} :
    Yields F (clearColumn G row column p.rows) w Q := by
  refine yields_matrix_bind ?_
  by_cases hlt : column < w.matrix.rows
  · have hone : w.matrix.entry (p.output.getD column 0) column = true := by
      rw [h.unit column hlt hcolumn, decide_eq_true rfl]
    have hstray : (w.matrix.colOnes column).find? (fun r => !p.rows.contains r) ≠ none := by
      intro hnone
      have := List.find?_eq_none.mp hnone _ (mem_colOnes.mpr hone)
      exact (h.output_lt column hlt hcolumn).2 (by simpa using this)
    obtain ⟨stray, hstray⟩ := Option.ne_none_iff_exists'.mp hstray
    simp only [hstray]
    exact hF
  · have hzero : ∀ r, w.matrix.entry r column = false := fun r =>
      w.matrix.entry_eq_false fun hin => hlt (h.invertible.cols_eq ▸ hin.2)
    have hones : w.matrix.colOnes column = [] := by
      refine List.eq_nil_iff_forall_not_mem.mpr fun r hr => ?_
      rw [mem_colOnes, hzero] at hr
      cases hr
    simp only [hones, List.find?_nil, List.contains_nil, Bool.false_eq_true, if_false,
      List.nil_append, List.length_singleton, Nat.lt_irrefl, hzero]
    exact hF

/-- **A remaining column with its only one at `row`** among the remaining rows is a unit vector: the
rows set aside hold no ones, before and after. -/
theorem unit_of_steps (h : p.Fits G w.matrix) {w' : Work} (hsteps : Steps (CoupledIn G p.rows) w w')
    {row column : ℕ} (hcolumn : column ∈ p.columns) (hone : w'.matrix.entry row column = true)
    (hothers : ∀ r ∈ p.rows, r ≠ row → w'.matrix.entry r column = false) (r : ℕ) :
    w'.matrix.entry r column = decide (r = row) := by
  by_cases heq : r = row
  · rw [heq, hone, decide_eq_true rfl]
  · rw [decide_eq_false heq]
    by_cases hr : r ∈ p.rows
    · exact hothers r hr heq
    · rw [hsteps.entry_eq_of_notMem (S := {q | q ∈ p.rows}) (fun a b hab => hab.1) hr]
      exact h.clear r hr column hcolumn

/-- **The column of a pair** becomes the unit vector at its row, if the pair remains and clearing
does not fail. -/
theorem clearColumn_yields (h : p.Fits G w.matrix) {row column : ℕ}
    (hF : ¬ p.Offers G row column → F) :
    Yields F (clearColumn G row column p.rows) w fun _ w' =>
      row ∈ p.rows ∧ column ∈ p.columns ∧ Steps (CoupledIn G p.rows) w w' ∧
        ∀ r, w'.matrix.entry r column = decide (r = row) := by
  by_cases hcolumn : column ∈ p.columns
  swap
  · exact clearColumn_gone h row hcolumn (hF fun hoffers => hcolumn hoffers.column_mem)
  have hin : ∀ r, w.matrix.entry r column = true → r ∈ p.rows := fun r =>
    h.mem_rows_of_entry hcolumn
  have hstray : (w.matrix.colOnes column).find? (fun r => !p.rows.contains r) = none := by
    refine List.find?_eq_none.mpr fun r hr => ?_
    simpa using hin r (mem_colOnes.mp hr)
  refine yields_matrix_bind ?_
  simp only [hstray]
  -- whichever way the list is made, the terminals are the row and the ones
  generalize hterminals : (if (w.matrix.colOnes column).contains row then w.matrix.colOnes column
    else w.matrix.colOnes column ++ [row]) = terminals
  have hmem : ∀ r, r ∈ terminals ↔ r = row ∨ w.matrix.entry r column = true := fun r =>
    hterminals ▸ mem_colOnes_with
  have hone := h.exists_one_column hcolumn
  split
  · refine yields_attempt_bind ?_ ?_
    · intro e he
      refine hF fun hoffers => ?_
      have hterminal : ∀ q ∈ terminals, q ∈ p.rows := fun q hq =>
        ((hmem q).mp hq).elim (fun heq => heq ▸ hoffers.row_mem) (hin q)
      obtain ⟨t, ht⟩ := CouplingGraph.steinerTree_exists (fun q hq => h.size ▸ h.rows_lt q hq)
        hoffers.row_mem hterminal hoffers.connected
      rw [ht] at he
      cases he
    · intro t ht
      obtain ⟨hspans, hroot, _⟩ := CouplingGraph.steinerTree_ok ht
      -- there is a tree, so its root remains
      have hrow : row ∈ p.rows := hroot ▸ hspans.allowed t.root List.mem_cons_self
      have hterm : Terminals w.matrix column row p.rows terminals := by
        intro r
        rw [hmem]
        refine ⟨fun hr => ⟨?_, hr⟩, fun hr => hr.2⟩
        exact hr.elim (fun heq => heq ▸ hrow) (hin r)
      refine (lower_spans_yields hterm hspans hroot h.rows_lt hone).mono ?_
      rintro _ w' ⟨hsteps, hrowOne, hothers⟩
      exact ⟨hrow, hcolumn, hsteps, unit_of_steps h hsteps hcolumn hrowOne hothers⟩
  · next hlength =>
    -- the row is the only terminal, so it holds the only one
    have honly : ∀ r, w.matrix.entry r column = true → r = row := by
      intro r hr
      have hr : r ∈ terminals := (hmem r).mpr (.inr hr)
      have hrow : row ∈ terminals := (hmem row).mpr (.inl rfl)
      obtain ⟨a, ha⟩ := List.length_eq_one_iff.mp
        (le_antisymm (Nat.le_of_not_lt hlength) (List.length_pos_of_mem hr))
      rw [ha, List.mem_singleton] at hr hrow
      exact hr.trans hrow.symm
    have hrowOne : w.matrix.entry row column = true := by
      obtain ⟨r, _, hone⟩ := hone
      rwa [honly r hone] at hone
    rw [if_pos hrowOne]
    refine yields_pure ⟨hin row hrowOne, hcolumn, Steps.refl w, ?_⟩
    refine unit_of_steps h (Steps.refl w) hcolumn hrowOne fun r _ hne => ?_
    rw [Bool.eq_false_iff]
    exact fun hone => hne (honly r hone)

/-! ## The row of a pair -/

/-- A sum modulo two, bit by bit. -/
theorem bitValue_foldl_xor (ks : List ℕ) (f : ℕ → Bool) (b : Bool) :
    bitValue (ks.foldl (fun acc k => acc ^^ f k) b) =
      bitValue b + (ks.map fun k => bitValue (f k)).sum := by
  induction ks generalizing b with
  | nil => simp
  | cons k ks ih => rw [List.foldl_cons, ih, bitValue_xor, List.map_cons, List.sum_cons, add_assoc]

/-- A sum over some of the first `n` numbers. -/
theorem sum_filter_range (f : ℕ → Bool) (g : ℕ → ZMod 2) (n : ℕ) :
    (((List.range n).filter f).map g).sum = ∑ k ∈ Finset.range n, bitValue (f k) * g k := by
  induction n with
  | zero => rfl
  | succ n ih =>
    rw [List.range_succ, List.filter_append, List.map_append, List.sum_append, ih,
      Finset.sum_range_succ]
    cases hf : f n <;> simp [hf]

/-- A row of a left inverse of a block, times a column of the block. -/
theorem sum_leftInverse_block {M N : ParityMatrix} {rows columns : List ℕ}
    (hNB : N.mul (M.block rows columns) = identity rows.length) (hcols : N.cols = rows.length)
    {k i : ℕ} (hk : k < rows.length) (hi : i < columns.length) :
    ∑ j ∈ Finset.range rows.length, bitValue (N.entry k j) *
      M.row (rows.getD j 0) (columns.getD i 0) = if k = i then 1 else 0 := by
  have hentry := bitValue_entry_mul N (M.block rows columns) k i
  rw [hNB, entry_identity, hcols, decide_eq_true hk, Bool.true_and] at hentry
  calc ∑ j ∈ Finset.range rows.length, bitValue (N.entry k j) *
        M.row (rows.getD j 0) (columns.getD i 0)
      = ∑ j ∈ Finset.range rows.length,
          bitValue (N.entry k j) * bitValue ((M.block rows columns).entry j i) := by
        refine Finset.sum_congr rfl fun j hj => ?_
        rw [entry_block M rows columns (Finset.mem_range.mp hj) hi]
        rfl
    _ = bitValue (k == i) := hentry.symm
    _ = if k = i then 1 else 0 := by by_cases hki : k = i <;> simp [hki]

/-- **Matching rows**: if the block of some rows and columns is invertible, some of the rows add up
to any given row on these columns. The inverse of the block says which. -/
theorem matchingRows_spec {M : ParityMatrix} (row : ℕ) {rows columns : List ℕ}
    (hblock : (M.block rows columns).IsInvertible) (hnodup : rows.Nodup) :
    ∃ selected, matchingRows M row rows columns = .ok selected ∧ selected.Nodup ∧
      (∀ r ∈ selected, r ∈ rows) ∧
      ∀ c ∈ columns, (selected.map fun r => M.row r c).sum = M.row row c := by
  obtain ⟨N, hN, hNr, hNc, hNB, _⟩ := hblock.inverse?_eq
  have hlen : rows.length = columns.length := hblock.cols_eq.symm
  have hNc : N.cols = rows.length := hNc
  unfold matchingRows
  rw [hN]
  dsimp only
  refine ⟨_, rfl, ?_, ?_, ?_⟩
  · refine (List.nodup_range.filter _).map_on ?_
    intro i hi j hj hij
    have hi := List.mem_range.mp (List.mem_filter.mp hi).1
    have hj := List.mem_range.mp (List.mem_filter.mp hj).1
    rw [List.getD_eq_getElem _ _ hi, List.getD_eq_getElem _ _ hj] at hij
    exact hnodup.getElem_inj_iff.mp hij
  · intro r hr
    obtain ⟨j, hj, rfl⟩ := List.mem_map.mp hr
    have hj := List.mem_range.mp (List.mem_filter.mp hj).1
    rw [List.getD_eq_getElem _ _ hj]
    exact List.getElem_mem hj
  · intro c hc
    obtain ⟨i, hi, rfl⟩ := List.mem_iff_getElem.mp hc
    have hci : columns.getD i 0 = columns[i] := List.getD_eq_getElem _ _ hi
    have hproduct : ∀ k ∈ Finset.range columns.length,
        ∑ j ∈ Finset.range rows.length, bitValue (N.entry k j) * M.row (rows.getD j 0) columns[i] =
          if k = i then 1 else 0 := by
      intro k hk
      rw [← hci]
      exact sum_leftInverse_block hNB hNc (hlen ▸ Finset.mem_range.mp hk) hi
    -- the product of the row, the inverse and the block, summed in the other order
    rw [List.map_map]
    calc (((List.range rows.length).filter fun j =>
            ((List.range columns.length).filter fun k => M.entry row (columns.getD k 0)).foldl
              (fun acc k => acc ^^ N.entry k j) false).map
            ((fun r => M.row r columns[i]) ∘ fun j => rows.getD j 0)).sum
        = ∑ j ∈ Finset.range rows.length, (∑ k ∈ Finset.range columns.length,
            M.row row (columns.getD k 0) * bitValue (N.entry k j)) *
            M.row (rows.getD j 0) columns[i] := by
          rw [sum_filter_range]
          refine Finset.sum_congr rfl fun j _ => ?_
          rw [bitValue_foldl_xor, bitValue_false, zero_add, sum_filter_range]
          rfl
      _ = ∑ k ∈ Finset.range columns.length, M.row row (columns.getD k 0) *
            ∑ j ∈ Finset.range rows.length,
              bitValue (N.entry k j) * M.row (rows.getD j 0) columns[i] := by
          simp only [Finset.sum_mul, Finset.mul_sum, mul_assoc]
          exact Finset.sum_comm
      _ = ∑ k ∈ Finset.range columns.length,
            M.row row (columns.getD k 0) * if k = i then 1 else 0 :=
          Finset.sum_congr rfl fun k hk => by rw [hproduct k hk]
      _ = M.row row columns[i] := by
          simp only [mul_ite, mul_one, mul_zero, Finset.sum_ite_eq', Finset.mem_range, hi, if_true,
            hci]

/-- **The row of a pair** is cleared on the other columns by rows that are zero in the column of the
pair. -/
theorem clearRow_yields {row : ℕ} {rows rest : List ℕ} (hM : w.matrix.IsInvertible)
    (hsize : G.size = w.matrix.rows) (hnodup : rows.Nodup) (hlt : ∀ r ∈ rows, r < w.matrix.rows)
    (hF : ¬ G.ConnectedOn {q | q ∈ rows} → F) (hrow : row ∈ rows) (hrest : rest.Nodup)
    (hrestlt : ∀ c ∈ rest, c < w.matrix.rows) (hlength : rest.length + 1 = rows.length)
    (hzero : ∀ r ∈ rows, r ≠ row → ∀ c, c < w.matrix.rows → c ∉ rest →
      w.matrix.entry r c = false) :
    Yields F (clearRow G row rows rest) w fun _ w' =>
      Steps (fun a b => CoupledIn G rows a b ∧ b ≠ row) w w' ∧
        ∀ c ∈ rest, w'.matrix.entry row c = false := by
  refine yields_matrix_bind ?_
  split
  · next hclear =>
    refine yields_pure ⟨Steps.refl w, ?_⟩
    intro c hc
    simpa using List.all_eq_true.mp hclear c hc
  · have hothers : ∀ {r}, r ∈ rows.filter (· != row) ↔ r ∈ rows ∧ r ≠ row := by simp
    have hblock : (w.matrix.block (rows.filter (· != row)) rest).IsInvertible := by
      refine hM.block ?_ (hnodup.filter _) ?_ hrest hrestlt ?_
      · have := length_filter_ne hnodup hrow
        omega
      · exact fun r hr => hlt r (hothers.mp hr).1
      · intro r hr
        exact hzero r (hothers.mp hr).1 (hothers.mp hr).2
    obtain ⟨selected, hselected, hselnodup, hselsub, hsum⟩ :=
      matchingRows_spec row hblock (hnodup.filter _)
    refine yields_attempt_bind (by rw [hselected]; simp) ?_
    rintro _ hok
    cases hselected.symm.trans hok
    have hterminals : ∀ q ∈ selected ++ [row], q ∈ rows := by
      intro q hq
      rcases List.mem_append.mp hq with hq | hq
      · exact (hothers.mp (hselsub q hq)).1
      · rw [List.mem_singleton.mp hq]
        exact hrow
    refine yields_attempt_bind ?_ ?_
    · intro e he
      refine hF fun hconnected => ?_
      obtain ⟨t, ht⟩ := CouplingGraph.steinerTree_exists (fun q hq => hsize ▸ hlt q hq) hrow
        hterminals hconnected
      rw [ht] at he
      cases he
    intro t ht
    obtain ⟨hspans, hroot, _⟩ := CouplingGraph.steinerTree_ok ht
    have hnodes : ∀ q ∈ t.nodes, q < w.matrix.rows := fun q hq => hlt q (hspans.allowed q hq)
    have hchildren : ∀ q ∈ selected, q ∈ t.children := by
      intro q hq
      rcases List.mem_cons.mp (hspans.terminal q (List.mem_append_left _ hq)) with heq | hmem
      · exact absurd (heq.trans hroot) (hothers.mp (hselsub q hq)).2
      · exact hmem
    have hcollect := row_collect_root hspans.grows w hnodes hselnodup hchildren
    -- the row and the sum of the matching ones cancel
    have hclear : ∀ c ∈ rest, (w.collect t selected).matrix.entry row c = false := by
      intro c hc
      have hrowc : (w.collect t selected).matrix.row row c =
          w.matrix.row row c + (selected.map fun r => w.matrix.row r c).sum := by
        have := congrFun hcollect c
        rw [hroot, Pi.add_apply, Pi.list_sum_apply, List.map_map] at this
        exact this
      rw [hsum c hc, ZModModule.add_self] at hrowc
      exact bitValue_eq_zero.mp hrowc
    refine yields_bind_of_exec (exec_collect t w selected) ?_
    refine yields_matrix_bind ?_
    have hfind : rest.find? ((w.collect t selected).matrix.entry row) = none := by
      refine List.find?_eq_none.mpr fun c hc => ?_
      rw [hclear c hc]
      exact Bool.false_ne_true
    rw [hfind]
    refine yields_pure ⟨(steps_collect w t selected).mono ?_, hclear⟩
    intro a b hab
    refine ⟨coupledIn_of_along hspans (.inl hab), ?_⟩
    rw [← hroot]
    exact hspans.grows.child_ne_root hab

/-! ## One pair -/

/-- **One pair set aside**, whatever the strategy had in mind: clearing it fails, or both remained
and a partial elimination is left. -/
theorem clearPair_yields (h : p.Fits G w.matrix) {row column : ℕ}
    (hF : ¬ p.Offers G row column → F) :
    Yields F (clearPair G row column p) w fun _ w' =>
      row ∈ p.rows ∧ column ∈ p.columns ∧ (p.remove row column).Fits G w'.matrix := by
  have hne_of_coupled : ∀ a b, CoupledIn G p.rows a b → a ≠ b := fun a b hab =>
    CouplingGraph.ne_of_hasEdge hab.2.2
  have hcolumns : ∀ {c}, c ∈ p.columns.filter (· != column) ↔ c ∈ p.columns ∧ c ≠ column := by simp
  have hrows : ∀ {r}, r ∈ p.rows.filter (· != row) ↔ r ∈ p.rows ∧ r ≠ row := by simp
  refine (clearColumn_yields h hF).bind ?_
  rintro _ w₁ ⟨hrow, hcolumn, hsteps₁, hunit₁⟩
  have hrows₁ := hsteps₁.rows_eq
  -- the columns set aside stay as they are, since they vanish on all sources
  have hkeep₁ : ∀ c, c < w.matrix.rows → c ∉ p.columns → ∀ r,
      w₁.matrix.entry r c = w.matrix.entry r c := fun c hc hnot =>
    hsteps₁.column_eq (S := {q | q ∈ p.rows}) (fun a b hab => hab.2.1)
      (fun r hr => h.entry_eq_false hr hc hnot)
  refine (clearRow_yields (hsteps₁.isInvertible hne_of_coupled h.invertible)
    (h.size.trans hrows₁.symm) h.nodup_rows (fun r hr => hrows₁ ▸ h.rows_lt r hr)
    (fun hnot => hF fun hoffers => hnot hoffers.connected) hrow (h.nodup_columns.filter _)
    (fun c hc => hrows₁ ▸ h.columns_lt c (hcolumns.mp hc).1)
    ((length_filter_ne h.nodup_columns hcolumn).trans h.length_eq.symm) ?_).mono ?_
  · intro r hr hne c hc hnot
    by_cases heq : c = column
    · rw [heq, hunit₁, decide_eq_false hne]
    · have hnot : c ∉ p.columns := fun hmem => hnot (hcolumns.mpr ⟨hmem, heq⟩)
      rw [hkeep₁ c (hrows₁ ▸ hc) hnot]
      exact h.entry_eq_false hr (hrows₁ ▸ hc) hnot
  · rintro _ w₂ ⟨hsteps₂, hclear₂⟩
    have hrows₂ : w₂.matrix.rows = w.matrix.rows := hsteps₂.rows_eq.trans hrows₁
    have hunit₂ : ∀ r, w₂.matrix.entry r column = decide (r = row) := by
      intro r
      rw [hsteps₂.column_eq (S := {q | q ≠ row}) (fun a b hab => hab.2) ?_, hunit₁]
      exact fun q hq => by rw [hunit₁, decide_eq_false hq]
    have hkeep₂ : ∀ c, c < w.matrix.rows → c ∉ p.columns → ∀ r,
        w₂.matrix.entry r c = w.matrix.entry r c := by
      intro c hc hnot r
      rw [hsteps₂.column_eq (S := {q | q ∈ p.rows}) (fun a b hab => hab.1.2.1) ?_, hkeep₁ c hc hnot]
      intro q hq
      rw [hkeep₁ c hc hnot]
      exact h.entry_eq_false hq hc hnot
    have hsame₂ : ∀ r, r ∉ p.rows → ∀ c, w₂.matrix.entry r c = w.matrix.entry r c := by
      intro r hr c
      rw [hsteps₂.entry_eq_of_notMem (S := {q | q ∈ p.rows}) (fun a b hab => hab.1.1) hr,
        hsteps₁.entry_eq_of_notMem (S := {q | q ∈ p.rows}) (fun a b hab => hab.1) hr]
    refine ⟨hrow, hcolumn, h.remove hrow hcolumn hrows₂ ?_ hunit₂ hkeep₂ hsame₂ hclear₂⟩
    exact hsteps₂.isInvertible (fun a b hab => hne_of_coupled a b hab.1)
      (hsteps₁.isInvertible hne_of_coupled h.invertible)

end Reduction

/-! ## Strategies -/

/-- The lightest of some numbers is one of them. -/
theorem lightest_spec (weight : ℕ → ℕ) {ns : List ℕ} (h : ns ≠ []) :
    ∃ a ∈ ns, lightest weight ns = some a := by
  obtain ⟨a, ha⟩ := exists_leastBy _ h
  exact ⟨a, leastBy_mem ha, ha⟩

/-- **A strategy that guides**: as long as several rows remain and are connected it finds a pair of
a row whose removal keeps the others connected and a remaining column. -/
def PairStrategy.Guides (choose : PairStrategy) (G : CouplingGraph) (K : Remaining → Prop) : Prop :=
  ∀ {M p}, Remaining.Fits p G M → p.Connected G → K p → 1 < p.rows.length →
    ∃ row column, choose M p (G.removable p.rows) = some (row, column) ∧
      row ∈ G.removable p.rows ∧ column ∈ p.columns

/-- **A property kept** by all pairs of a strategy, and by the last pair. -/
structure PairStrategy.Keeps (choose : PairStrategy) (K : Remaining → Prop) : Prop where
  pair : ∀ {M p candidates row column}, K p → choose M p candidates = some (row, column) →
    K (p.remove row column)
  last : ∀ {p row column}, K p → p.rows = [row] → p.columns = [column] → K (p.remove row column)

/-- Every strategy keeps what is always true. -/
theorem PairStrategy.keeps_true (choose : PairStrategy) : choose.Keeps fun _ => True :=
  ⟨fun _ _ => trivial, fun _ _ _ => trivial⟩

/-- A connected graph of two or more qubits has one that does not cut it. -/
theorem Remaining.Fits.exists_removable {p : Remaining} {G : CouplingGraph} {M : ParityMatrix}
    (h : p.Fits G M) (hconnected : p.Connected G) (hlength : 1 < p.rows.length) :
    G.removable p.rows ≠ [] := by
  have hne : p.rows ≠ [] := List.ne_nil_of_length_pos (by omega)
  obtain ⟨q, hq⟩ := CouplingGraph.exists_mem_removable (fun r hr => h.size ▸ h.rows_lt r hr) hne
    hconnected
  exact List.ne_nil_of_mem hq

/-- A removable row remains, and the others stay connected without it. -/
theorem Remaining.Fits.mem_removable {p : Remaining} {G : CouplingGraph} {M : ParityMatrix}
    (h : p.Fits G M) {row : ℕ} (hrow : row ∈ G.removable p.rows) (column : ℕ) :
    row ∈ p.rows ∧ (p.remove row column).Connected G :=
  (CouplingGraph.mem_removable_iff fun r hr => h.size ▸ h.rows_lt r hr).mp hrow

/-- A row strategy that always chooses one of its candidates. -/
def RowStrategy.Picks (row : RowStrategy) : Prop :=
  ∀ M candidates columns, candidates ≠ [] → ∃ r ∈ candidates, row M candidates columns = some r

/-- A column strategy that chooses one of the remaining columns, at least if the row holds a one in
one of them. -/
def ColumnStrategy.Picks (column : ColumnStrategy) : Prop :=
  ∀ M r rows columns, (∃ c ∈ columns, M.entry r c = true) →
    ∃ c ∈ columns, column M r rows columns = some c

/-- **A row first, then a column**: a row among the candidates, and a column that remains whenever
the row does. -/
theorem guides_freePair {G : CouplingGraph} {row : RowStrategy} {column : ColumnStrategy}
    (hrow : row.Picks)
    (hcolumn : ∀ {M p r}, Remaining.Fits p G M → r ∈ p.rows →
      ∃ c ∈ p.columns, column M r p.rows p.columns = some c) :
    (freePair row column).Guides G fun _ => True := by
  intro M p h hconnected _ hlength
  obtain ⟨r, hr, hrow⟩ := hrow M _ p.columns (h.exists_removable hconnected hlength)
  obtain ⟨c, hc, hcolumn⟩ := hcolumn h (h.mem_removable hr 0).1
  refine ⟨r, c, ?_, hr, hc⟩
  unfold freePair
  rw [hrow]
  change (do let column ← column M r p.rows p.columns; return (r, column) : Option (ℕ × ℕ)) = _
  rw [hcolumn]
  rfl

/-- A remaining row holds a one in a remaining column; the column chosen may be another one. -/
theorem guides_of_picks (G : CouplingGraph) {row : RowStrategy} {column : ColumnStrategy}
    (hrow : row.Picks) (hcolumn : column.Picks) :
    (freePair row column).Guides G fun _ => True :=
  guides_freePair hrow fun h hr => hcolumn _ _ _ _ (h.exists_one_row hr)

/-- The lightest row is one of the candidates. -/
theorem picks_lightestRow : lightestRow.Picks :=
  fun M _ columns => lightest_spec (M.rowWeightOn columns)

/-- The lightest column in which the row has a one is there if the row has a one. -/
theorem picks_lightestColumn : lightestColumn.Picks := by
  rintro M r rows columns ⟨c, hc, hone⟩
  have hones : columns.filter (M.entry r) ≠ [] :=
    List.ne_nil_of_mem (List.mem_filter.mpr ⟨hc, hone⟩)
  obtain ⟨column, hcolumn, hlightest⟩ := lightest_spec (M.colWeightOn rows) hones
  exact ⟨column, (List.mem_filter.mp hcolumn).1, hlightest⟩

/-- The lightest row and the lightest column for it. -/
theorem guides_lightest (G : CouplingGraph) :
    (freePair lightestRow lightestColumn).Guides G fun _ => True :=
  guides_of_picks G picks_lightestRow picks_lightestColumn

/-- Rows and columns have been set aside under the same numbers. -/
structure Remaining.Tied (p : Remaining) : Prop where
  columns_eq : p.columns = p.rows
  output_eq : ∀ c, c < p.output.length → c ∉ p.columns → p.output.getD c 0 = c

/-- At first rows and columns are tied. -/
theorem Remaining.tied_start (n : ℕ) : (Remaining.start n).Tied where
  columns_eq := rfl
  output_eq := by
    intro c hc hnot
    rw [Remaining.start, List.length_replicate] at hc
    exact absurd (List.mem_range.mpr hc) hnot

/-- Setting aside a row with its column leaves the others tied. -/
theorem Remaining.Tied.remove {p : Remaining} (h : p.Tied) (q : ℕ) : (p.remove q q).Tied where
  columns_eq := by
    change p.columns.filter (· != q) = p.rows.filter (· != q)
    rw [h.columns_eq]
  output_eq := by
    intro c hc hnot
    change c < (p.output.set q q).length at hc
    rw [List.length_set] at hc
    change (p.output.set q q).getD c 0 = c
    by_cases heq : c = q
    · subst heq
      simp [List.getD_eq_getElem?_getD, hc]
    · rw [List.getD_eq_getElem?_getD, List.getElem?_set_ne (Ne.symm heq),
        ← List.getD_eq_getElem?_getD]
      refine h.output_eq c hc fun hmem => hnot ?_
      exact List.mem_filter.mpr ⟨hmem, by simpa using heq⟩

/-- The lowest row and the column of the same number. -/
theorem guides_tiedPair (G : CouplingGraph) : tiedPair.Guides G Remaining.Tied := by
  intro M p h hconnected htied hlength
  obtain ⟨q, hq, hlowest⟩ := lightest_spec (fun _ => 0) (h.exists_removable hconnected hlength)
  refine ⟨q, q, ?_, hq, ?_⟩
  · unfold tiedPair lowestRow
    rw [hlowest]
    rfl
  · rw [htied.columns_eq]
    exact (h.mem_removable hq q).1

/-- Tied vertex elimination keeps rows and columns tied. -/
theorem keeps_tiedPair : tiedPair.Keeps Remaining.Tied where
  pair := by
    intro M p candidates row column htied hpair
    obtain ⟨q, _, hq⟩ := Option.map_eq_some_iff.mp hpair
    cases hq
    exact htied.remove _
  last := by
    intro p row column htied hrow hcolumn
    have heq : column = row := by
      have := htied.columns_eq
      rw [hrow, hcolumn] at this
      exact List.singleton_inj.mp this
    rw [heq]
    exact htied.remove row

/-! ## All pairs -/

/-- **A permutation matrix**: the one of column `c` is in row `output[c]`. -/
structure ParityMatrix.PlacesOnes (M : ParityMatrix) (output : List ℕ) : Prop where
  perm : IsPermutation output M.rows
  square : M.cols = M.rows
  entry : ∀ r c, c < M.rows → M.entry r c = decide (r = output.getD c 0)

/-- When no row remains, the matrix is a permutation matrix. -/
theorem Remaining.Fits.placesOnes {p : Remaining} {G : CouplingGraph} {M : ParityMatrix}
    (h : p.Fits G M) (hrows : p.rows = []) : M.PlacesOnes p.output := by
  have hcolumns : p.columns = [] := by
    have := h.length_eq
    rw [hrows] at this
    exact List.eq_nil_of_length_eq_zero this.symm
  have hnot : ∀ c, c ∉ p.columns := by simp [hcolumns]
  refine ⟨⟨h.length_output, ?_, ?_⟩, h.invertible.cols_eq, fun r c hc => h.unit c hc (hnot c) r⟩
  · intro q hq
    obtain ⟨c, hc, rfl⟩ := List.mem_iff_getElem.mp hq
    have hlt := (h.output_lt c (h.length_output ▸ hc) (hnot c)).1
    rwa [List.getD_eq_getElem _ _ hc] at hlt
  · refine List.nodup_iff_injective_getElem.mpr ?_
    rintro ⟨c, hc⟩ ⟨d, hd⟩ heq
    refine Fin.ext (h.output_inj c d (h.length_output ▸ hc) (h.length_output ▸ hd) (hnot c)
      (hnot d) ?_)
    rw [List.getD_eq_getElem _ _ hc, List.getD_eq_getElem _ _ hd]
    exact heq

namespace Reduction

variable {G : CouplingGraph} {F : Prop} {choose : PairStrategy} {K : Remaining → Prop}

/-- The last row and column. -/
theorem finish_yields (hkeeps : choose.Keeps K) {p : Remaining} {w : Work}
    (h : p.Fits G w.matrix) (hK : K p) (hlength : p.rows.length ≤ 1) :
    Yields F (finish p) w fun p' w' => p'.Fits G w'.matrix ∧ K p' ∧ p'.rows = [] := by
  unfold finish
  have heq := h.length_eq
  split
  · next row column hrows hcolumns =>
    have hrow : row ∈ p.rows := by rw [hrows]; exact List.mem_singleton_self row
    have hcolumn : column ∈ p.columns := by rw [hcolumns]; exact List.mem_singleton_self column
    -- the column has a one, and no other row may hold it
    have hone : w.matrix.entry row column = true := by
      obtain ⟨r, hr, hone⟩ := h.exists_one_column hcolumn
      rw [hrows] at hr
      rwa [List.mem_singleton.mp hr] at hone
    have hunit : ∀ r, w.matrix.entry r column = decide (r = row) := by
      intro r
      by_cases heq : r = row
      · rw [heq, hone, decide_eq_true rfl]
      · rw [decide_eq_false heq]
        refine h.clear r ?_ column hcolumn
        rw [hrows]
        simpa using heq
    refine yields_matrix_bind ?_
    rw [if_pos hone]
    refine yields_bind_of_exec (exec_report _ w) ?_
    refine yields_pure ⟨?_, hkeeps.last hK hrows hcolumns, ?_⟩
    · refine h.remove hrow hcolumn rfl h.invertible hunit (fun _ _ _ _ => rfl) (fun _ _ _ => rfl) ?_
      simp [hcolumns]
    · change p.rows.filter (· != row) = []
      rw [hrows]
      simp
  · next hnot =>
    refine yields_pure ⟨h, hK, ?_⟩
    by_contra hne
    obtain ⟨row, hrow⟩ := List.length_eq_one_iff.mp
      (le_antisymm hlength (List.length_pos_of_ne_nil hne))
    obtain ⟨column, hcolumn⟩ :=
      List.length_eq_one_iff.mp (heq ▸ List.length_eq_one_iff.mpr ⟨row, hrow⟩)
    exact hnot row column hrow hcolumn

/-- **Vertex elimination**: the number of rows is enough fuel. If it may fail, nothing is asked of
the strategy or the graph. -/
theorem eliminateFrom_yields (hkeeps : choose.Keeps K) (hguides : ¬ F → choose.Guides G K)
    (fuel : ℕ) :
    ∀ (p : Remaining) (w : Work), p.Fits G w.matrix → (¬ F → p.Connected G) → K p →
      p.rows.length ≤ fuel →
      Yields F (eliminateFrom G choose fuel p) w fun p' w' =>
        p'.Fits G w'.matrix ∧ K p' ∧ p'.rows = [] := by
  induction fuel with
  | zero =>
    intro p w h _ hK hlength
    exact finish_yields hkeeps h hK (by omega)
  | succ fuel ih =>
    intro p w h hconnected hK hlength
    unfold eliminateFrom
    split
    · next hshort => exact finish_yields hkeeps h hK hshort
    · next hlong =>
      -- what a strategy that guides would have chosen
      have hoffer : ¬ F → ∃ row column,
          choose w.matrix p (G.removable p.rows) = some (row, column) ∧
          row ∈ G.removable p.rows ∧ column ∈ p.columns := fun hF =>
        hguides hF h (hconnected hF) hK (by omega)
      refine yields_matrix_bind ?_
      cases hpair : choose w.matrix p (G.removable p.rows) with
      | none =>
        -- no pair: the elimination fails
        refine Classical.byContradiction fun hF => ?_
        obtain ⟨row, column, hsome, _⟩ := hoffer hF
        rw [hpair] at hsome
        cases hsome
      | some pair =>
        obtain ⟨row, column⟩ := pair
        have hguided : ¬ F → row ∈ G.removable p.rows ∧ column ∈ p.columns := by
          intro hF
          obtain ⟨_, _, hsome, hmem⟩ := hoffer hF
          cases hpair.symm.trans hsome
          exact hmem
        refine (clearPair_yields h ?_).bind ?_
        · intro hnot
          refine Classical.byContradiction fun hF => hnot ?_
          obtain ⟨hrow, hcolumn⟩ := hguided hF
          exact ⟨(h.mem_removable hrow column).1, hcolumn, hconnected hF⟩
        · rintro _ w₁ ⟨hrow, _, h₁⟩
          refine yields_bind_of_exec (exec_report _ w₁) ?_
          refine ih (p.remove row column) _ h₁ ?_ (hkeeps.pair hK hpair) ?_
          · exact fun hF => (h.mem_removable (hguided hF).1 column).2
          · have := length_filter_ne h.nodup_rows hrow
            change (p.rows.filter (· != row)).length ≤ fuel
            omega

/-- Eliminating all pairs ends with a permutation matrix, and with nothing that remains. -/
theorem eliminateAll_yields (hkeeps : choose.Keeps K) (hguides : ¬ F → choose.Guides G K)
    {p : Remaining} {w : Work} (h : p.Fits G w.matrix) (hconnected : ¬ F → p.Connected G)
    (hK : K p) :
    Yields F (eliminateAll G choose p) w fun p' w' =>
      w'.matrix.PlacesOnes p'.output ∧ K p' ∧ p'.rows = [] :=
  (eliminateFrom_yields hkeeps hguides p.rows.length p w h hconnected hK le_rfl).mono
    fun _ _ h' => ⟨h'.1.placesOnes h'.2.2, h'.2⟩

end Reduction

end CnotSynthesis
