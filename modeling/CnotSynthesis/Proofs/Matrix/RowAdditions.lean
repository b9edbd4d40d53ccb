import CnotSynthesis.Elimination.Work
import CnotSynthesis.Matrix.Contract
import CnotSynthesis.Proofs.Matrix.ModTwo

/-! # Row additions and invertible matrices

A row addition is multiplication from the left, and a proper one, between two different rows of the
matrix, undoes itself.

* **`RowAddition.IsProper n op`** — `op` joins two different rows out of `n`.
* **`ParityMatrix.addRow?_of_isProper`**, **`addCol?_of_isProper`** — proper additions go through.
* **`ParityMatrix.addRows_mul`** — row additions act on the first factor of a product.
* **`ParityMatrix.addRows_reverse`** — proper row additions are undone in reverse order.
* **`M.spanOn S`** — the span of some rows; additions into them from among them do not change it.
* **`M.IsInvertible`** — `M` is square and has a two-sided inverse; row additions and transposition
  do not change that.
* **`IsInvertible.length_le`**, **`IsInvertible.block`** — rows of an invertible matrix that vanish
  outside some columns are at most as many as these columns, and if they are as many, they form an
  invertible block there. -/

namespace CnotSynthesis

/-- Two different rows out of `n`. -/
def RowAddition.IsProper (n : ℕ) (op : RowAddition) : Prop :=
  op.target < n ∧ op.source < n ∧ op.target ≠ op.source

/-- Whether a row addition is proper can be decided. -/
instance (n : ℕ) (op : RowAddition) : Decidable (op.IsProper n) :=
  inferInstanceAs (Decidable (_ ∧ _ ∧ _))

namespace ParityMatrix

/-! ## Row additions on rows -/

/-- A row addition replaces the target row by its sum with the source row. -/
theorem row_addRow {M : ParityMatrix} {t : ℕ} (h : t < M.rows) (s : ℕ) :
    (M.addRow t s).row = Function.update M.row t (M.row t + M.row s) := by
  funext r c
  rw [row_apply, entry_addRow]
  by_cases hr : r = t
  · subst hr
    simp [h, row_apply]
  · simp [hr, row_apply]

/-- Row additions keep the number of rows. -/
@[simp] theorem rows_addRows (M : ParityMatrix) (ops : List RowAddition) :
    (M.addRows ops).rows = M.rows := by
  induction ops generalizing M with
  | nil => rfl
  | cons op ops ih => exact (ih (M.addRow op.target op.source)).trans (rows_addRow _ _ _)

/-- Row additions keep the number of columns. -/
@[simp] theorem cols_addRows (M : ParityMatrix) (ops : List RowAddition) :
    (M.addRows ops).cols = M.cols := by
  induction ops generalizing M with
  | nil => rfl
  | cons op ops ih => exact (ih (M.addRow op.target op.source)).trans (cols_addRow _ _ _)

/-- The first row addition, then the others. -/
theorem addRows_cons (M : ParityMatrix) (op : RowAddition) (ops : List RowAddition) :
    M.addRows (op :: ops) = (M.addRow op.target op.source).addRows ops := rfl

/-- **Rows that are no targets stay as they are.** -/
theorem entry_addRows_of_notMem {M : ParityMatrix} {ops : List RowAddition} {r : ℕ}
    (h : ∀ op ∈ ops, op.target ≠ r) (c : ℕ) : (M.addRows ops).entry r c = M.entry r c := by
  induction ops generalizing M with
  | nil => rfl
  | cons op ops ih =>
    rw [addRows_cons, ih fun op hop => h op (List.mem_cons_of_mem _ hop), entry_addRow]
    exact if_neg fun hr => h op List.mem_cons_self hr.1.symm

/-! ## Checked additions -/

/-- A proper row addition is no breach. -/
theorem rowBreach?_eq_none {rows : ℕ} {op : RowAddition} (h : op.IsProper rows) :
    rowBreach? rows op.target op.source = none := by
  obtain ⟨ht, hs, hne⟩ := h
  rw [rowBreach?, if_neg (by simp [ht, hs]), if_neg hne]

/-- A proper row addition is carried out. -/
theorem addRow?_of_isProper {M : ParityMatrix} {op : RowAddition} (h : op.IsProper M.rows) :
    M.addRow? op.target op.source = .ok (M.addRow op.target op.source) := by
  rw [addRow?, rowBreach?_eq_none h]

/-- A proper addition of columns is carried out. -/
theorem addCol?_of_isProper {M : ParityMatrix} {op : RowAddition} (h : op.IsProper M.cols) :
    M.addCol? op.target op.source = .ok (M.addCol op.target op.source) := by
  obtain ⟨ht, hs, hne⟩ := h
  rw [addCol?, if_neg (by simp [ht, hs]), if_neg hne]

/-! ## Additions and products -/

/-- **A row addition acts on the first factor of a product.** -/
theorem addRow_mul (M N : ParityMatrix) (t s : ℕ) :
    (M.addRow t s).mul N = (M.mul N).addRow t s := by
  refine ext_entry (by rfl) (by rfl) ?_
  intro r c _ _
  apply bitValue_injective
  rw [bitValue_entry_mul, cols_addRow, entry_addRow]
  by_cases hr : r = t ∧ t < M.rows
  · obtain ⟨rfl, ht⟩ := hr
    simp only [entry_addRow, rows_mul, ht, and_self, if_true, bitValue_bne, bitValue_entry_mul,
      add_mul, Finset.sum_add_distrib]
  · simp only [entry_addRow, rows_mul, hr, if_false, bitValue_entry_mul]

/-- Row additions act on the first factor of a product. -/
theorem addRows_mul (M N : ParityMatrix) (ops : List RowAddition) :
    (M.addRows ops).mul N = (M.mul N).addRows ops := by
  induction ops generalizing M with
  | nil => rfl
  | cons op ops ih => rw [addRows_cons, ih, addRow_mul, addRows_cons]

/-- **A proper row addition undoes itself.** -/
theorem addRow_addRow {M : ParityMatrix} {t s : ℕ} (h : t ≠ s) :
    (M.addRow t s).addRow t s = M := by
  refine ext_entry (by rfl) (by rfl) ?_
  intro r c _ _
  rw [entry_addRow]
  by_cases hr : r = t ∧ t < M.rows
  · obtain ⟨rfl, ht⟩ := hr
    have hs : ¬ s = r := fun hs => h hs.symm
    simp [entry_addRow, ht, hs]
  · simp [entry_addRow, hr]

/-- Row additions with different rows are undone in reverse order. -/
theorem addRows_reverse {M : ParityMatrix} {ops : List RowAddition}
    (h : ∀ op ∈ ops, op.target ≠ op.source) : (M.addRows ops).addRows ops.reverse = M := by
  induction ops generalizing M with
  | nil => rfl
  | cons op ops ih =>
    have hrest := ih (M := M.addRow op.target op.source) fun o ho => h o (List.mem_cons_of_mem _ ho)
    rw [addRows_cons, List.reverse_cons, addRows_append, hrest]
    exact addRow_addRow (h op List.mem_cons_self)

/-! ## Spans of rows -/

/-- The span of the rows with numbers in `S`. -/
def spanOn (M : ParityMatrix) (S : Set ℕ) : Submodule (ZMod 2) (ℕ → ZMod 2) :=
  Submodule.span (ZMod 2) (M.row '' S)

/-- Rows of a set are in its span. -/
theorem row_mem_spanOn (M : ParityMatrix) {S : Set ℕ} {r : ℕ} (h : r ∈ S) : M.row r ∈ M.spanOn S :=
  Submodule.subset_span ⟨r, h, rfl⟩

/-- A row addition within a set of rows adds nothing to its span. -/
theorem spanOn_addRow_le (M : ParityMatrix) {S : Set ℕ} {t s : ℕ} (h : t ∈ S → s ∈ S) :
    (M.addRow t s).spanOn S ≤ M.spanOn S := by
  refine Submodule.span_le.mpr ?_
  rintro _ ⟨r, hr, rfl⟩
  by_cases ht : t < M.rows
  · rw [row_addRow ht]
    by_cases hrt : r = t
    · subst hrt
      rw [Function.update_self]
      exact Submodule.add_mem _ (M.row_mem_spanOn hr) (M.row_mem_spanOn (h hr))
    · rw [Function.update_of_ne hrt]
      exact M.row_mem_spanOn hr
  · have hsame : (M.addRow t s).row r = M.row r := by
      funext j
      rw [row_apply, entry_addRow, if_neg (fun h => ht h.2)]
      rfl
    rw [hsame]
    exact M.row_mem_spanOn hr

/-- **Row additions into some rows from among them** do not change the span of these rows. -/
theorem spanOn_addRows {M : ParityMatrix} {S : Set ℕ} {ops : List RowAddition}
    (h : ∀ op ∈ ops, op.target ≠ op.source) (hS : ∀ op ∈ ops, op.target ∈ S → op.source ∈ S) :
    (M.addRows ops).spanOn S = M.spanOn S := by
  have hle : ∀ (ops : List RowAddition) (M : ParityMatrix),
      (∀ op ∈ ops, op.target ∈ S → op.source ∈ S) → (M.addRows ops).spanOn S ≤ M.spanOn S := by
    intro ops
    induction ops with
    | nil => exact fun M _ => le_rfl
    | cons op ops ih =>
      exact fun M hS => (ih _ fun op hop => hS op (List.mem_cons_of_mem _ hop)).trans
        (spanOn_addRow_le M (hS op List.mem_cons_self))
  refine le_antisymm (hle ops M hS) ?_
  -- the additions in reverse order lead back
  have hback := hle ops.reverse (M.addRows ops) fun op hop => hS op (List.mem_reverse.mp hop)
  rwa [addRows_reverse h] at hback

/-! ## Invertible matrices -/

/-- Square, with a two-sided inverse. -/
def IsInvertible (M : ParityMatrix) : Prop :=
  M.cols = M.rows ∧ ∃ N : ParityMatrix, N.rows = M.rows ∧ N.cols = M.rows ∧
    M.mul N = identity M.rows ∧ N.mul M = identity M.rows

/-- An invertible matrix is square. -/
theorem IsInvertible.cols_eq {M : ParityMatrix} (h : M.IsInvertible) : M.cols = M.rows := h.1

/-- The identity is invertible. -/
theorem isInvertible_identity (n : ℕ) : (identity n).IsInvertible :=
  ⟨rfl, identity n, rfl, rfl, identity_mul rfl, identity_mul rfl⟩

/-- **One side is enough**: a square matrix with a right inverse is invertible. -/
theorem isInvertible_of_mul_eq {M N : ParityMatrix} (hM : M.cols = M.rows) (hNr : N.rows = M.rows)
    (hNc : N.cols = M.rows) (h : M.mul N = identity M.rows) : M.IsInvertible := by
  refine ⟨hM, N, hNr, hNc, h, ?_⟩
  have hright : M.toMatrix M.rows M.rows * N.toMatrix M.rows M.rows = 1 := by
    rw [← toMatrix_mul hM, h, toMatrix_identity]
  refine eq_of_toMatrix_eq (by simp [hNr]) (by simp [hM]) ?_
  rw [rows_mul, cols_mul, hNr, hM, toMatrix_mul hNc, toMatrix_identity]
  exact mul_eq_one_comm.mp hright

/-- Proper row additions keep a matrix invertible. -/
theorem IsInvertible.addRows {M : ParityMatrix} (h : M.IsInvertible) {ops : List RowAddition}
    (hops : ∀ op ∈ ops, op.target ≠ op.source) : (M.addRows ops).IsInvertible := by
  obtain ⟨hM, N, hNr, hNc, hMN, _⟩ := h
  -- the inverse takes the additions on its other side, in reverse order
  let R := (identity M.rows).addRows ops.reverse
  have hR : R.rows = M.rows := rows_addRows _ _
  refine isInvertible_of_mul_eq (N := N.mul R) (by simp [hM]) (by simp [hNr]) ?_ ?_
  · rw [cols_mul, rows_addRows]
    exact cols_addRows _ _
  · have hNM : (M.addRows ops).mul N = (identity M.rows).addRows ops := by
      rw [addRows_mul, hMN]
    rw [← mul_mul (by rw [cols_addRows, hM, hNr]), hNM, addRows_mul, identity_mul hR, rows_addRows]
    have hback : ((identity M.rows).addRows ops.reverse).addRows ops.reverse.reverse =
        identity M.rows := addRows_reverse fun op hop => hops op (List.mem_reverse.mp hop)
    rwa [List.reverse_reverse] at hback

/-- Proper row additions do not make a matrix invertible that was not. -/
theorem IsInvertible.of_addRows {M : ParityMatrix} {ops : List RowAddition}
    (hops : ∀ op ∈ ops, op.target ≠ op.source) (h : (M.addRows ops).IsInvertible) :
    M.IsInvertible := by
  have hback : ((M.addRows ops).addRows ops.reverse).IsInvertible :=
    h.addRows fun op hop => hops op (List.mem_reverse.mp hop)
  rwa [addRows_reverse hops] at hback

/-- The transpose of an invertible matrix is invertible. -/
theorem IsInvertible.transpose {M : ParityMatrix} (h : M.IsInvertible) :
    M.transpose.IsInvertible := by
  obtain ⟨hM, N, hNr, hNc, hMN, hNM⟩ := h
  refine isInvertible_of_mul_eq (N := N.transpose) ?_ ?_ ?_ ?_
  · rw [cols_transpose, rows_transpose, hM]
  · rw [rows_transpose, rows_transpose, hNc, hM]
  · rw [cols_transpose, rows_transpose, hNr, hM]
  · rw [← transpose_mul (by rw [hNc]), hNM, rows_transpose, hM, transpose_identity]

/-! ## Blocks of an invertible matrix -/

/-- A sum over the positions of a list without repetitions is a sum over its elements. -/
theorem sum_range_getD {cs : List ℕ} (h : cs.Nodup) (f : ℕ → ZMod 2) :
    ∑ k ∈ Finset.range cs.length, f (cs.getD k 0) = ∑ c ∈ cs.toFinset, f c := by
  rw [List.sum_toFinset f h, ← Fin.sum_univ_eq_sum_range (fun k => f (cs.getD k 0)),
    ← Fin.sum_univ_fun_getElem]
  exact Finset.sum_congr rfl fun k _ => by rw [List.getD_eq_getElem _ _ k.isLt]

/-- **Rows that vanish outside some columns.** If `M N` is the identity and the rows `rs` of `M` are
zero outside the columns `cs`, then the block of `M` on `rs` and `cs` has the block of `N` on `cs`
and `rs` as a right inverse. -/
theorem block_mul_block {M N : ParityMatrix} {n : ℕ} (hM : M.cols = n) (hMN : M.mul N = identity n)
    {rs cs : List ℕ} (hrs : rs.Nodup) (hrn : ∀ r ∈ rs, r < n) (hcs : cs.Nodup)
    (hcn : ∀ c ∈ cs, c < n) (hzero : ∀ r ∈ rs, ∀ c, c < n → c ∉ cs → M.entry r c = false) :
    (M.block rs cs).mul (N.block cs rs) = identity rs.length := by
  refine ext_entry (by rfl) (by rfl) ?_
  intro i j hi hj
  have hi : i < rs.length := hi
  have hj : j < rs.length := hj
  have hri : rs.getD i 0 ∈ rs := by rw [List.getD_eq_getElem _ _ hi]; exact List.getElem_mem hi
  apply bitValue_injective
  -- the sum over the block is the whole sum, since the other summands vanish
  have hsum : bitValue (((M.block rs cs).mul (N.block cs rs)).entry i j) =
      bitValue ((M.mul N).entry (rs.getD i 0) (rs.getD j 0)) := by
    rw [bitValue_entry_mul, bitValue_entry_mul, cols_block, hM]
    let f : ℕ → ZMod 2 := fun c =>
      bitValue (M.entry (rs.getD i 0) c) * bitValue (N.entry c (rs.getD j 0))
    have hblock : ∀ k ∈ Finset.range cs.length,
        bitValue ((M.block rs cs).entry i k) * bitValue ((N.block cs rs).entry k j) =
          f (cs.getD k 0) := by
      intro k hk
      have hk := Finset.mem_range.mp hk
      rw [entry_block M rs cs hi hk, entry_block N cs rs hk hj]
    rw [Finset.sum_congr rfl hblock, sum_range_getD hcs f]
    apply Finset.sum_subset
    · intro c hc
      exact Finset.mem_range.mpr (hcn c (List.mem_toFinset.mp hc))
    · intro c hc hcs'
      change bitValue (M.entry (rs.getD i 0) c) * bitValue (N.entry c (rs.getD j 0)) = 0
      rw [hzero _ hri c (Finset.mem_range.mp hc) (fun h => hcs' (List.mem_toFinset.mpr h)),
        bitValue_false, zero_mul]
  rw [hsum, hMN, entry_identity, entry_identity]
  have hinj : (rs.getD i 0 == rs.getD j 0) = (i == j) := by
    rw [List.getD_eq_getElem _ _ hi, List.getD_eq_getElem _ _ hj, Bool.eq_iff_iff, beq_iff_eq,
      beq_iff_eq]
    exact hrs.getElem_inj_iff
  rw [hinj, decide_eq_true (hrn _ hri), decide_eq_true hi]

section Support

variable {M : ParityMatrix} {rs cs : List ℕ}

/-- **Rows that vanish outside some columns are at most as many.** -/
theorem IsInvertible.length_le (h : M.IsInvertible) (hrs : rs.Nodup) (hrn : ∀ r ∈ rs, r < M.rows)
    (hcs : cs.Nodup) (hcn : ∀ c ∈ cs, c < M.rows)
    (hzero : ∀ r ∈ rs, ∀ c, c < M.rows → c ∉ cs → M.entry r c = false) :
    rs.length ≤ cs.length := by
  obtain ⟨hM, N, _, _, hMN, _⟩ := h
  have hblock := block_mul_block hM hMN hrs hrn hcs hcn hzero
  have hone : (M.block rs cs).toMatrix rs.length cs.length *
      (N.block cs rs).toMatrix cs.length rs.length = 1 := by
    rw [← toMatrix_mul (cols_block M rs cs), hblock, toMatrix_identity]
  calc rs.length = (1 : Matrix (Fin rs.length) (Fin rs.length) (ZMod 2)).rank := by
        rw [Matrix.rank_one, Fintype.card_fin]
    _ ≤ ((M.block rs cs).toMatrix rs.length cs.length).rank := by
        rw [← hone]
        exact Matrix.rank_mul_le_left _ _
    _ ≤ cs.length := Matrix.rank_le_width _

/-- **As many rows as columns form an invertible block.** -/
theorem IsInvertible.block (h : M.IsInvertible) (hlen : rs.length = cs.length) (hrs : rs.Nodup)
    (hrn : ∀ r ∈ rs, r < M.rows) (hcs : cs.Nodup) (hcn : ∀ c ∈ cs, c < M.rows)
    (hzero : ∀ r ∈ rs, ∀ c, c < M.rows → c ∉ cs → M.entry r c = false) :
    (M.block rs cs).IsInvertible := by
  obtain ⟨hM, N, _, _, hMN, _⟩ := h
  exact isInvertible_of_mul_eq (N := N.block cs rs) hlen.symm hlen.symm rfl
    (block_mul_block hM hMN hrs hrn hcs hcn hzero)

/-- Relabelling the rows and columns keeps a matrix invertible. -/
theorem IsInvertible.relabel (h : M.IsInvertible) {p q : List ℕ} (hp : IsPermutation p M.rows)
    (hq : IsPermutation q M.rows) : (M.relabel p q).IsInvertible := by
  have hblock : M.relabel p q = M.block p q := by
    refine ext_entry hp.length_eq.symm (h.cols_eq.trans hq.length_eq.symm) ?_
    intro r c hr hc
    have hr : r < M.rows := hr
    have hc : c < M.cols := hc
    rw [entry_relabel M p q hr hc, entry_block M p q (by rw [hp.length_eq]; exact hr)
      (by rw [hq.length_eq, ← h.cols_eq]; exact hc)]
  rw [hblock]
  refine h.block (hp.length_eq.trans hq.length_eq.symm) hp.nodup hp.lt hq.nodup hq.lt ?_
  intro r _ c hc hcq
  -- a permutation lists every column
  have hall : q.toFinset = Finset.range M.rows := by
    apply Finset.eq_of_subset_of_card_le
    · intro x hx
      exact Finset.mem_range.mpr (hq.lt x (List.mem_toFinset.mp hx))
    · rw [Finset.card_range, List.toFinset_card_of_nodup hq.nodup, hq.length_eq]
  exact absurd (List.mem_toFinset.mp (hall ▸ Finset.mem_range.mpr hc)) hcq

end Support

end ParityMatrix

end CnotSynthesis
