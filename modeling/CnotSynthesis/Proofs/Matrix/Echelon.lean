import CnotSynthesis.Proofs.Matrix.RowAdditions

/-! # Echelon forms

* **`M.EchelonTo pivots c`** — the first `c` columns of `M` are in echelon form: row `i` starts at
  column `pivots[i]`, and the rows after these are zero there. `EchelonTo.skip` and `EchelonTo.snoc`
  are the two ways to take in one more column.
* **`M.ClearedFrom pivots k`** — from pivot `k` on, the pivot is the only one of its column.
  `EchelonTo.clear` takes in one more pivot.
* **`M.rowSpace`** — the span of the rows; proper row additions do not change it.
* **`ReducedEchelon.unique`** — two reduced forms with one row space are equal.
* **`EchelonTo.rank_eq`** — the number of pivots is the rank. -/

namespace CnotSynthesis

namespace ParityMatrix

variable {M N : ParityMatrix} {pivots : List ℕ} {c k : ℕ}

/-! ## Echelon form on the first columns -/

/-- **Echelon form of the first `c` columns**, with the pivot of row `i` in column `pivots[i]`. -/
structure EchelonTo (M : ParityMatrix) (pivots : List ℕ) (c : ℕ) : Prop where
  /-- The pivots ascend. -/
  sorted : pivots.Pairwise (· < ·)
  lt : ∀ p ∈ pivots, p < c
  length_le : pivots.length ≤ M.rows
  pivot : ∀ {i p}, pivots[i]? = some p → M.entry i p = true
  /-- A one stands in a row with a pivot, not before the pivot. -/
  lead : ∀ {r j}, j < c → M.entry r j = true → ∃ p, pivots[r]? = some p ∧ p ≤ j

/-- From pivot `k` on, the pivot is the only one of its column. -/
def ClearedFrom (M : ParityMatrix) (pivots : List ℕ) (k : ℕ) : Prop :=
  ∀ i p, k ≤ i → pivots[i]? = some p → ∀ r, r ≠ i → M.entry r p = false

/-- Behind the last pivot there is nothing to clear. -/
theorem clearedFrom_length (M : ParityMatrix) (pivots : List ℕ) :
    M.ClearedFrom pivots pivots.length := by
  intro i p hi hp
  rw [List.getElem?_eq_none hi] at hp
  cases hp

/-- **Reduced echelon form**: every pivot is the only one of its column. -/
structure ReducedEchelon (M : ParityMatrix) (pivots : List ℕ) : Prop where
  echelon : M.EchelonTo pivots M.cols
  cleared : M.ClearedFrom pivots 0

/-- Before the first column there is nothing to ask. -/
theorem echelonTo_zero (M : ParityMatrix) : M.EchelonTo [] 0 where
  sorted := List.Pairwise.nil
  lt := by simp
  length_le := Nat.zero_le _
  pivot := by simp
  lead := fun h => absurd h (Nat.not_lt_zero _)

/-- The identity is reduced, with all columns as pivots. -/
theorem reducedEchelon_identity (n : ℕ) : (identity n).ReducedEchelon (List.range n) where
  echelon :=
    { sorted := List.pairwise_lt_range
      lt := by simp
      length_le := by simp
      pivot := by
        intro i p hi
        obtain ⟨hlt, rfl⟩ := List.getElem?_eq_some_iff.mp hi
        simpa [entry_identity] using hlt
      lead := by
        intro r j hj hone
        rw [entry_identity] at hone
        obtain ⟨rfl, hlt⟩ : r = j ∧ r < n := by simpa [and_comm] using hone
        exact ⟨r, List.getElem?_range hlt, le_rfl⟩ }
  cleared := by
    intro i p _ hi r hr
    obtain ⟨_, rfl⟩ := List.getElem?_eq_some_iff.mp hi
    simp [entry_identity, hr]

namespace EchelonTo

/-- Later rows have later pivots. -/
theorem pivot_lt_pivot (h : M.EchelonTo pivots c) {i j p q : ℕ} (hi : pivots[i]? = some p)
    (hj : pivots[j]? = some q) (hij : i < j) : p < q := by
  obtain ⟨hi', rfl⟩ := List.getElem?_eq_some_iff.mp hi
  obtain ⟨hj', rfl⟩ := List.getElem?_eq_some_iff.mp hj
  exact List.pairwise_iff_getElem.mp h.sorted i j hi' hj' hij

/-- Rows without a pivot are zero. -/
theorem entry_eq_false (h : M.EchelonTo pivots c) {r j : ℕ} (hr : pivots.length ≤ r) (hj : j < c) :
    M.entry r j = false := by
  rw [Bool.eq_false_iff]
  intro hone
  obtain ⟨p, hp, _⟩ := h.lead hj hone
  rw [List.getElem?_eq_none hr] at hp
  cases hp

/-- Below a pivot its column is zero. -/
theorem entry_below (h : M.EchelonTo pivots c) {i p r : ℕ} (hi : pivots[i]? = some p) (hr : i < r) :
    M.entry r p = false := by
  rw [Bool.eq_false_iff]
  intro hone
  obtain ⟨q, hq, hle⟩ := h.lead (h.lt p (List.mem_of_getElem? hi)) hone
  have := h.pivot_lt_pivot hi hq hr
  omega

/-- A row is zero before its pivot. -/
theorem entry_before (h : M.EchelonTo pivots c) {i p j : ℕ} (hi : pivots[i]? = some p)
    (hj : j < p) :
    M.entry i j = false := by
  rw [Bool.eq_false_iff]
  intro hone
  have hp := h.lt p (List.mem_of_getElem? hi)
  obtain ⟨q, hq, hle⟩ := h.lead (by omega) hone
  rw [hi] at hq
  cases hq
  omega

/-- **A column without a new pivot**: it is zero on the rows that have none. -/
theorem skip (h : M.EchelonTo pivots c) (hzero : ∀ r, pivots.length ≤ r → M.entry r c = false) :
    M.EchelonTo pivots (c + 1) where
  sorted := h.sorted
  lt := fun p hp => Nat.lt_succ_of_lt (h.lt p hp)
  length_le := h.length_le
  pivot := h.pivot
  lead := by
    intro r j hj hone
    rcases Nat.lt_succ_iff_lt_or_eq.mp hj with hj | rfl
    · exact h.lead hj hone
    · have hr : r < pivots.length := by
        by_contra hr
        rw [hzero r (by omega)] at hone
        cases hone
      exact ⟨_, List.getElem?_eq_getElem hr, (h.lt _ (List.getElem_mem hr)).le⟩

/-- **A column with a new pivot**: the rows that have pivots stay, the others stay zero on the
earlier columns, and the first of them is the only one with a one in the column. -/
theorem snoc (h : M.EchelonTo pivots c) (hrows : N.rows = M.rows) (hlt : pivots.length < M.rows)
    (hkeep : ∀ r, r < pivots.length → ∀ j, N.entry r j = M.entry r j)
    (hzero : ∀ r, pivots.length ≤ r → ∀ j, j < c → N.entry r j = false)
    (hpivot : N.entry pivots.length c = true)
    (hbelow : ∀ r, pivots.length < r → N.entry r c = false) :
    N.EchelonTo (pivots ++ [c]) (c + 1) where
  sorted := by
    rw [List.pairwise_append]
    refine ⟨h.sorted, List.pairwise_singleton _ _, ?_⟩
    intro a ha b hb
    rw [List.mem_singleton.mp hb]
    exact h.lt a ha
  lt := by
    intro p hp
    rcases List.mem_append.mp hp with hp | hp
    · exact Nat.lt_succ_of_lt (h.lt p hp)
    · rw [List.mem_singleton.mp hp]
      exact Nat.lt_succ_self c
  length_le := by
    rw [List.length_append, List.length_singleton, hrows]
    exact hlt
  pivot := by
    intro i p hi
    rcases Nat.lt_trichotomy i pivots.length with hlt | rfl | hgt
    · rw [List.getElem?_append_left hlt] at hi
      rw [hkeep i hlt]
      exact h.pivot hi
    · rw [List.getElem?_concat_length] at hi
      cases hi
      exact hpivot
    · rw [List.getElem?_eq_none (by simp; omega)] at hi
      cases hi
  lead := by
    intro r j hj hone
    rcases Nat.lt_trichotomy r pivots.length with hlt | rfl | hgt
    · rw [List.getElem?_append_left hlt]
      rw [hkeep r hlt] at hone
      rcases Nat.lt_succ_iff_lt_or_eq.mp hj with hj | rfl
      · exact h.lead hj hone
      · exact ⟨_, List.getElem?_eq_getElem hlt, (h.lt _ (List.getElem_mem hlt)).le⟩
    · refine ⟨c, List.getElem?_concat_length, ?_⟩
      by_contra hcj
      rw [hzero _ le_rfl j (by omega)] at hone
      cases hone
    · rcases Nat.lt_succ_iff_lt_or_eq.mp hj with hj | rfl
      · rw [hzero r hgt.le j hj] at hone
        cases hone
      · rw [hbelow r hgt] at hone
        cases hone

/-- **Clearing the column of a pivot**: its row goes into every other row with a one there. The form
stays, and so do the pivot columns that were cleared. -/
theorem clear (h : M.EchelonTo pivots c) (hk : M.ClearedFrom pivots (k + 1)) {p : ℕ}
    (hp : pivots[k]? = some p) (hrows : N.rows = M.rows)
    (hN : ∀ r j, N.entry r j =
      if r ≠ k ∧ M.entry r p = true then (M.entry r j != M.entry k j) else M.entry r j) :
    N.EchelonTo pivots c ∧ N.ClearedFrom pivots k := by
  have hpc : p < c := h.lt p (List.mem_of_getElem? hp)
  -- row `k` is zero in every other pivot column, whether that comes before or is cleared
  have hother : ∀ i q, i ≠ k → pivots[i]? = some q → M.entry k q = false := by
    intro i q hik hi
    rcases Nat.lt_or_gt_of_ne hik with hlt | hgt
    · exact h.entry_below hi hlt
    · exact hk i q hgt hi k (Ne.symm hik)
  constructor
  · refine ⟨h.sorted, h.lt, hrows ▸ h.length_le, ?_, ?_⟩
    · intro i q hi
      rw [hN]
      split
      · next hcond =>
        rw [hother i q hcond.1 hi, h.pivot hi]
        rfl
      · exact h.pivot hi
    · intro r j hj hone
      rw [hN] at hone
      split at hone
      · next hcond =>
        obtain ⟨q, hq, hqp⟩ := h.lead hpc hcond.2
        refine ⟨q, hq, ?_⟩
        by_contra hjq
        -- before its own pivot neither row has a one
        have hr : M.entry r j = false := h.entry_before hq (by omega)
        have hkj : M.entry k j = false := h.entry_before hp (by omega)
        rw [hr, hkj] at hone
        cases hone
      · exact h.lead hj hone
  · intro i q hki hi r hri
    rw [hN]
    rcases Nat.eq_or_lt_of_le hki with rfl | hlt
    · rw [hp] at hi
      cases hi
      by_cases hone : M.entry r p = true
      · rw [if_pos ⟨hri, hone⟩, hone, h.pivot hp]
        rfl
      · rw [if_neg (fun hcond => hone hcond.2), Bool.eq_false_iff]
        exact hone
    · have hrq : M.entry r q = false := hk i q hlt hi r hri
      rw [hrq, hother i q (by omega) hi]
      split <;> rfl

/-- Echelon form in the sense of matrices over the field of two elements. -/
theorem isRowEchelon (h : M.EchelonTo pivots M.cols) :
    (M.toMatrix M.rows M.cols).IsRowEchelon := by
  intro i₁ i₂ hlt j hzero
  rw [toMatrix_apply, bitValue_eq_zero, Bool.eq_false_iff]
  intro hone
  obtain ⟨q, hq, hqj⟩ := h.lead j.isLt hone
  -- the row above has its pivot further left, where it should be zero
  obtain ⟨hi₂, _⟩ := List.getElem?_eq_some_iff.mp hq
  have hi₁ : (i₁ : ℕ) < pivots.length := lt_trans hlt hi₂
  have hp : pivots[(i₁ : ℕ)]? = some (pivots[(i₁ : ℕ)]) := List.getElem?_eq_getElem hi₁
  have hpq := h.pivot_lt_pivot hp hq hlt
  have hpivot := hzero ⟨pivots[(i₁ : ℕ)], by omega⟩ (Fin.mk_lt_of_lt_val (by omega))
  rw [toMatrix_apply, bitValue_eq_zero] at hpivot
  exact Bool.false_ne_true (hpivot.symm.trans (h.pivot hp))

end EchelonTo

/-! ## Row space and uniqueness -/

/-- The span of the rows. -/
def rowSpace (M : ParityMatrix) : Submodule (ZMod 2) (ℕ → ZMod 2) :=
  Submodule.span (ZMod 2) (Set.range M.row)

/-- A row is in the row space. -/
theorem row_mem_rowSpace (M : ParityMatrix) (r : ℕ) : M.row r ∈ M.rowSpace :=
  Submodule.subset_span ⟨r, rfl⟩

/-- All rows span the row space. -/
theorem spanOn_univ (M : ParityMatrix) : M.spanOn Set.univ = M.rowSpace := by
  rw [spanOn, Set.image_univ, rowSpace]

/-- **Proper row additions do not change the row space.** -/
theorem rowSpace_addRows {ops : List RowAddition} (h : ∀ op ∈ ops, op.target ≠ op.source) :
    (M.addRows ops).rowSpace = M.rowSpace := by
  rw [← spanOn_univ, ← spanOn_univ]
  exact spanOn_addRows h fun _ _ _ => Set.mem_univ _

namespace ReducedEchelon

/-- **A vector of the row space from its values at the pivots.** -/
theorem eq_sum (h : M.ReducedEchelon pivots) {v : ℕ → ZMod 2} (hv : v ∈ M.rowSpace) :
    v = ∑ i ∈ Finset.range pivots.length, v (pivots.getD i 0) • M.row i := by
  induction hv using Submodule.span_induction with
  | zero => simp
  | add x y _ _ hx hy =>
    simp only [Pi.add_apply, add_smul, Finset.sum_add_distrib]
    rw [← hx, ← hy]
  | smul a x _ hx =>
    simp only [Pi.smul_apply, smul_eq_mul, mul_smul]
    rw [← Finset.smul_sum, ← hx]
  | mem x hx =>
    obtain ⟨r, rfl⟩ := hx
    -- row `r` is one at its own pivot, if it has one, and zero at the others
    have hvalue : ∀ i ∈ Finset.range pivots.length,
        M.row r (pivots.getD i 0) • M.row i = if i = r then M.row r else 0 := by
      intro i hi
      have hget : pivots[i]? = some (pivots.getD i 0) := by
        rw [List.getD_eq_getElem _ _ (Finset.mem_range.mp hi)]
        exact List.getElem?_eq_getElem _
      split
      · next hir =>
        subst hir
        rw [row_apply, h.echelon.pivot hget, bitValue_true, one_smul]
      · next hir =>
        rw [row_apply, h.cleared i _ (Nat.zero_le _) hget r (Ne.symm hir), bitValue_false,
          zero_smul]
    rw [Finset.sum_congr rfl hvalue, Finset.sum_ite_eq']
    split
    · rfl
    · next hr =>
      funext j
      have hr : pivots.length ≤ r := by simpa using hr
      rw [row_apply, Pi.zero_apply, bitValue_eq_zero]
      by_cases hj : j < M.cols
      · exact h.echelon.entry_eq_false hr hj
      · exact ParityMatrix.entry_eq_false fun hlt => hj hlt.2

/-- A vector of the row space starts at a pivot. -/
theorem lead_mem (h : M.ReducedEchelon pivots) {v : ℕ → ZMod 2} (hv : v ∈ M.rowSpace) {j : ℕ}
    (hj : v j ≠ 0) (hbefore : ∀ i < j, v i = 0) : j ∈ pivots := by
  have hsum : v j = ∑ i ∈ Finset.range pivots.length, v (pivots.getD i 0) * M.row i j := by
    conv_lhs => rw [h.eq_sum hv]
    simp
  rw [hsum] at hj
  obtain ⟨i, hi, hne⟩ := Finset.exists_ne_zero_of_sum_ne_zero hj
  have hi := Finset.mem_range.mp hi
  have hget : pivots[i]? = some (pivots.getD i 0) := by
    rw [List.getD_eq_getElem _ _ hi]
    exact List.getElem?_eq_getElem _
  -- that row has a one at `j`, and the vector one at its pivot: the pivot is `j`
  have hone : M.entry i j = true := by
    rw [← Bool.not_eq_false]
    intro hzero
    exact hne (by rw [row_apply, hzero, bitValue_false, mul_zero])
  have hjc : j < M.cols := by
    by_contra hjc
    rw [ParityMatrix.entry_eq_false fun hlt => hjc hlt.2] at hone
    cases hone
  obtain ⟨p, hp, hpj⟩ := h.echelon.lead hjc hone
  have hjp : j ≤ p := by
    by_contra hlt
    rw [hget] at hp
    cases hp
    exact hne (by rw [hbefore _ (by omega), zero_mul])
  rw [le_antisymm hjp hpj]
  exact List.mem_of_getElem? hp

/-- Reduced forms of one row space have the same pivots. -/
theorem mem_of_mem {pivots' : List ℕ} (hM : M.ReducedEchelon pivots) (hN : N.ReducedEchelon pivots')
    (hspace : M.rowSpace = N.rowSpace) {p : ℕ} (hp : p ∈ pivots) : p ∈ pivots' := by
  obtain ⟨i, hi⟩ := List.mem_iff_getElem?.mp hp
  refine hN.lead_mem (v := M.row i) (hspace ▸ M.row_mem_rowSpace i) ?_ ?_
  · rw [row_apply, hM.echelon.pivot hi, bitValue_true]
    exact one_ne_zero
  · intro j hj
    rw [row_apply, hM.echelon.entry_before hi hj, bitValue_false]

/-- **The reduced echelon form is unique**: matrices of one shape and one row space that are in
reduced form are equal, with the same pivots. -/
theorem unique {pivots' : List ℕ} (hM : M.ReducedEchelon pivots) (hN : N.ReducedEchelon pivots')
    (hrows : M.rows = N.rows) (hcols : M.cols = N.cols) (hspace : M.rowSpace = N.rowSpace) :
    pivots = pivots' ∧ M = N := by
  have hpivots : pivots = pivots' := by
    have hperm : pivots.Perm pivots' := by
      refine (List.perm_ext_iff_of_nodup ?_ ?_).mpr ?_
      · exact hM.echelon.sorted.imp (fun h => Nat.ne_of_lt h)
      · exact hN.echelon.sorted.imp (fun h => Nat.ne_of_lt h)
      · exact fun p => ⟨hM.mem_of_mem hN hspace, hN.mem_of_mem hM hspace.symm⟩
    exact hperm.eq_of_pairwise (fun a b _ _ hab hba => absurd hab (Nat.lt_asymm hba))
      hM.echelon.sorted hN.echelon.sorted
  subst hpivots
  refine ⟨rfl, eq_of_row_eq hrows hcols ?_⟩
  intro r _
  -- the row of `M` has the values of the row of `N` at the pivots
  have hvalues : ∀ i ∈ Finset.range pivots.length,
      M.row r (pivots.getD i 0) • N.row i = N.row r (pivots.getD i 0) • N.row i := by
    intro i hi
    have hget : pivots[i]? = some (pivots.getD i 0) := by
      rw [List.getD_eq_getElem _ _ (Finset.mem_range.mp hi)]
      exact List.getElem?_eq_getElem _
    rw [row_apply, row_apply]
    by_cases hr : r = i
    · rw [hr, hM.echelon.pivot hget, hN.echelon.pivot hget]
    · rw [hM.cleared i _ (Nat.zero_le _) hget r hr, hN.cleared i _ (Nat.zero_le _) hget r hr]
  calc M.row r = ∑ i ∈ Finset.range pivots.length, M.row r (pivots.getD i 0) • N.row i :=
        hN.eq_sum (hspace ▸ M.row_mem_rowSpace r)
    _ = ∑ i ∈ Finset.range pivots.length, N.row r (pivots.getD i 0) • N.row i :=
        Finset.sum_congr rfl hvalues
    _ = N.row r := (hN.eq_sum (N.row_mem_rowSpace r)).symm

/-- With a pivot in every row and column the form is the identity. -/
theorem eq_identity (h : M.ReducedEchelon pivots) (hlen : pivots.length = M.rows)
    (hsquare : M.cols = M.rows) : M = identity M.rows := by
  -- ascending numbers below their count are all of them
  have hrange : pivots = List.range M.rows := by
    have hsub : pivots.toFinset = Finset.range M.rows := by
      apply Finset.eq_of_subset_of_card_le
      · intro p hp
        exact Finset.mem_range.mpr (hsquare ▸ h.echelon.lt p (List.mem_toFinset.mp hp))
      · rw [Finset.card_range, List.toFinset_card_of_nodup
          (h.echelon.sorted.imp fun hlt => Nat.ne_of_lt hlt), hlen]
    have hperm : pivots.Perm (List.range M.rows) := by
      refine (List.perm_ext_iff_of_nodup ?_ List.nodup_range).mpr ?_
      · exact h.echelon.sorted.imp fun hlt => Nat.ne_of_lt hlt
      · intro p
        rw [← List.mem_toFinset, hsub, Finset.mem_range, List.mem_range]
    exact hperm.eq_of_pairwise (fun a b _ _ hab hba => absurd hab (Nat.lt_asymm hba))
      h.echelon.sorted List.pairwise_lt_range
  refine ext_entry (by rfl) hsquare ?_
  intro r j hr hj
  rw [hsquare] at hj
  have hget : pivots[j]? = some j := by rw [hrange, List.getElem?_range hj]
  rw [entry_identity, decide_eq_true hr, Bool.true_and]
  by_cases hrj : r = j
  · subst hrj
    rw [h.echelon.pivot hget, beq_self_eq_true]
  · rw [h.cleared j j (Nat.zero_le _) hget r hrj, beq_false_of_ne hrj]

/-- The form is reduced in the usual sense. -/
theorem isReducedRowEchelon (h : M.ReducedEchelon pivots) :
    (M.toMatrix M.rows M.cols).IsReducedRowEchelon where
  isRowEchelon := h.echelon.isRowEchelon
  eq_one := by
    intro i c hlead
    have hne := hlead.2
    rw [toMatrix_apply] at hne ⊢
    rw [bitValue_eq_one]
    rwa [Ne, bitValue_eq_zero, Bool.not_eq_false] at hne
  eq_zero := by
    intro i₁ i₂ c hlt hlead
    have hone : M.entry i₂ c = true := by
      have hne := hlead.2
      rwa [toMatrix_apply, Ne, bitValue_eq_zero, Bool.not_eq_false] at hne
    obtain ⟨p, hp, hpc⟩ := h.echelon.lead c.isLt hone
    have hc : p = (c : ℕ) := by
      by_contra hne
      have hzero := hlead.1 ⟨p, by omega⟩ (Fin.mk_lt_of_lt_val (by omega))
      rw [toMatrix_apply, bitValue_eq_zero] at hzero
      exact Bool.false_ne_true (hzero.symm.trans (h.echelon.pivot hp))
    rw [toMatrix_apply, bitValue_eq_zero, ← hc]
    exact h.cleared i₂ p (Nat.zero_le _) hp i₁ (Nat.ne_of_lt hlt)

end ReducedEchelon

/-! ## Rank -/

/-- The pivot of row `i` among `n` columns, `⊤` if there is none. -/
def pivotColumn (pivots : List ℕ) (n i : ℕ) : WithTop (Fin n) :=
  match pivots[i]? with
  | none => ⊤
  | some p => if hp : p < n then ((⟨p, hp⟩ : Fin n) : WithTop (Fin n)) else ⊤

namespace EchelonTo

/-- The pivot column of a row that has a pivot. -/
theorem pivotColumn_eq (h : M.EchelonTo pivots c) {i p : ℕ} (hi : pivots[i]? = some p) :
    pivotColumn pivots c i = (⟨p, h.lt p (List.mem_of_getElem? hi)⟩ : Fin c) := by
  rw [pivotColumn, hi]
  exact dif_pos _

/-- Rows behind the pivots have no pivot column. -/
theorem pivotColumn_eq_top_iff (h : M.EchelonTo pivots c) {i : ℕ} :
    pivotColumn pivots c i = ⊤ ↔ pivots.length ≤ i := by
  constructor
  · intro htop
    by_contra hi
    have hp : pivots[i]? = some pivots[i] := List.getElem?_eq_getElem (by omega)
    rw [h.pivotColumn_eq hp] at htop
    exact WithTop.coe_ne_top htop
  · intro hi
    rw [pivotColumn, List.getElem?_eq_none hi]

/-- The pivot columns are those of the matrix over the field of two elements. -/
theorem isPivotedBy (h : M.EchelonTo pivots M.cols) :
    (M.toMatrix M.rows M.cols).IsPivotedBy fun i => pivotColumn pivots M.cols i where
  isRowEchelon := h.isRowEchelon
  isPivotEntry := by
    intro i
    rcases lt_or_ge (i : ℕ) pivots.length with hi | hi
    · have hp : pivots[(i : ℕ)]? = some pivots[(i : ℕ)] := List.getElem?_eq_getElem hi
      rw [h.pivotColumn_eq hp]
      constructor
      · intro j hj
        have hj : (j : ℕ) < pivots[(i : ℕ)] := Fin.lt_def.mp (WithTop.coe_lt_coe.mp hj)
        rw [toMatrix_apply, h.entry_before hp hj, bitValue_false]
      · intro q hq
        rw [← WithTop.coe_injective hq, toMatrix_apply, h.pivot hp, bitValue_true]
        exact one_ne_zero
    · rw [h.pivotColumn_eq_top_iff.mpr hi]
      constructor
      · intro j _
        rw [toMatrix_apply, h.entry_eq_false hi j.isLt, bitValue_false]
      · exact fun q hq => absurd hq.symm WithTop.coe_ne_top

/-- **The number of pivots is the rank.** -/
theorem rank_eq (h : M.EchelonTo pivots M.cols) :
    (M.toMatrix M.rows M.cols).rank = pivots.length := by
  rw [h.isPivotedBy.rank_eq]
  have hfilter : (Finset.univ.filter fun i : Fin M.rows => pivotColumn pivots M.cols i ≠ ⊤) =
      Finset.univ.filter fun i : Fin M.rows => (i : ℕ) < pivots.length := by
    refine Finset.filter_congr fun i _ => ?_
    rw [Ne, h.pivotColumn_eq_top_iff, not_le]
  rw [hfilter, Fin.card_filter_val_lt, min_eq_right h.length_le]

end EchelonTo

/-- Proper row additions do not change the rank. -/
theorem rank_toMatrix_addRows {ops : List RowAddition} (h : ∀ op ∈ ops, op.target ≠ op.source) :
    ((M.addRows ops).toMatrix M.rows M.cols).rank = (M.toMatrix M.rows M.cols).rank := by
  have hmul : M.addRows ops = ((identity M.rows).addRows ops).mul M := by
    rw [addRows_mul, identity_mul rfl]
  obtain ⟨_, N, _, _, hone, _⟩ := (isInvertible_identity M.rows).addRows h
  have hunit : IsUnit (((identity M.rows).addRows ops).toMatrix M.rows M.rows) := by
    have hcols : ((identity M.rows).addRows ops).cols = M.rows := cols_addRows _ _
    have hrows : ((identity M.rows).addRows ops).rows = M.rows := rows_addRows _ _
    refine IsUnit.of_mul_eq_one (N.toMatrix M.rows M.rows) ?_
    rw [← toMatrix_mul hcols, hone, hrows, toMatrix_identity]
  rw [hmul, toMatrix_mul (k := M.rows) (cols_addRows _ _)]
  exact Matrix.rank_mul_eq_right_of_isUnit_det _ _ ((Matrix.isUnit_iff_isUnit_det _).mp hunit)

end ParityMatrix

end CnotSynthesis
