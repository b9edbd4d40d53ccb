import CnotSynthesis.Proofs.Elimination.SteinerByRow
import CnotSynthesis.Proofs.Graph.NearestTerminal
import CnotSynthesis.Proofs.Matrix.ReducedForm

/-! # Columns that are clean from the start

What Steiner elimination does with a column that is clear below its pivot before it gets there: no
rows are added, and no tree beyond the pivot is needed.

* **`Reduction.clearBelow_clean`** — one such column.
* **`Reduction.descend_clean`**, **`Reduction.descendAlong_clean`** — the downward passes leave
  clean columns as they are, on any graph.
* **`Reduction.steinerByRow_clean`** — so pivots by row number do for an upper triangular matrix
  with a diagonal of ones, on any connected graph.
* **`Reduction.descend_stuck`** — but the pass ends in an error at a column with ones in two rows
  that are not connected by the rows left.
* **`Reduction.exists_stuck_transpose`** — unless the qubits from any number on are connected, there
  is a matrix that is reduced by row number while its transpose is not. -/

namespace CnotSynthesis

open Work

/-! ## Trees without edges -/

/-- The tree to the root alone. -/
theorem CouplingGraph.steinerTree_root {G : CouplingGraph} {root : ℕ} {usable : List ℕ}
    (hlt : ∀ q ∈ usable, q < G.size) (hroot : root ∈ usable) :
    G.steinerTree root [root] usable = .ok ⟨root, []⟩ := by
  unfold steinerTree
  rw [steinerTreeWith_eq] <;> simp only [List.append_nil]
  · simp [attach, SteinerTree.contains, SteinerTree.nodes]
  · exact hlt
  · exact hroot
  · simpa using hroot

namespace ParityMatrix

variable {M : ParityMatrix}

/-- **A clean column**: a one on the diagonal and zeros below it. -/
def CleanAt (M : ParityMatrix) (i : ℕ) : Prop :=
  M.entry i i = true ∧ ∀ r, i < r → M.entry r i = false

/-- If all columns are clean, the matrix is in echelon form. -/
theorem echelonTo_range (h : ∀ i, i < M.rows → M.CleanAt i) :
    M.EchelonTo (List.range M.rows) M.rows where
  sorted := List.pairwise_lt_range
  lt := by simp
  length_le := by simp
  pivot := by
    intro i p hi
    obtain ⟨hlt, rfl⟩ := List.getElem?_eq_some_iff.mp hi
    rw [List.getElem_range]
    exact (h i (by simpa using hlt)).1
  lead := by
    intro r j hj hone
    have hle : r ≤ j := by
      by_contra hlt
      rw [(h j hj).2 r (by omega)] at hone
      cases hone
    exact ⟨r, List.getElem?_range (by omega), hle⟩

/-- An elementary matrix is invertible. -/
theorem isInvertible_addRow_identity (n : ℕ) {t s : ℕ} (hne : t ≠ s) :
    ((identity n).addRow t s).IsInvertible := by
  have hops : ∀ op ∈ [(⟨t, s⟩ : RowAddition)], op.target ≠ op.source := by
    intro op hop
    rw [List.mem_singleton.mp hop]
    exact hne
  exact (isInvertible_identity n).addRows hops

/-- The ones of the identity with one row added into another: the diagonal and one more. -/
theorem entry_addRow_identity {n t s : ℕ} (ht : t < n) (hs : s < n) (hne : t ≠ s) {r c : ℕ} :
    ((identity n).addRow t s).entry r c = true ↔ (r < n ∧ r = c) ∨ (r = t ∧ c = s) := by
  rw [entry_addRow, rows_identity]
  simp only [entry_identity]
  split <;> grind

end ParityMatrix

namespace Reduction

open ParityMatrix

variable {G : CouplingGraph} {F : Prop} {w : Work}

/-! ## One column -/

/-- The pivot is the only terminal of a clean column. -/
theorem terminalsAt_eq_singleton {M : ParityMatrix} {column pivot : ℕ} {rows : List ℕ}
    (hnodup : rows.Nodup) (hpivot : pivot ∈ rows)
    (hzero : ∀ r ∈ rows, r ≠ pivot → M.entry r column = false) :
    terminalsAt M column pivot rows = [pivot] := by
  have hfilter : terminalsAt M column pivot rows = rows.filter (· == pivot) := by
    refine List.filter_congr fun r hr => ?_
    by_cases hrp : r = pivot
    · simp [hrp]
    · rw [hzero r hr hrp, Bool.or_false]
  rw [hfilter, List.filter_beq, List.count_eq_one_of_mem hnodup hpivot]
  rfl

/-- **Nothing is added in a clean column.** -/
theorem clearBelow_clean {column pivot : ℕ} {usable : List ℕ} (hlt : ∀ q ∈ usable, q < G.size)
    (hpivot : pivot ∈ usable) (hone : w.matrix.entry pivot column = true) :
    Yields F (clearBelow G column pivot [pivot] usable) w fun _ w' => w'.matrix = w.matrix := by
  unfold clearBelow
  rw [CouplingGraph.steinerTree_root hlt hpivot]
  refine yields_attempt_bind (by simp) ?_
  rintro _ ⟨⟩
  have hlower : Yields F (lower ⟨pivot, []⟩ column) w fun _ w' => w'.matrix = w.matrix := by
    -- there are no edges to pass over
    have hpasses : (w.raise ⟨pivot, []⟩ column).cancel ⟨pivot, []⟩ = w := rfl
    refine yields_bind_of_exec (exec_raise _ w column) ?_
    refine yields_bind_of_exec (exec_cancel _ _) ?_
    refine yields_matrix_bind ?_
    rw [hpasses]
    have hfault : lowerFault? w.matrix ⟨pivot, []⟩ column = none := by simp [lowerFault?, hone]
    rw [hfault]
    exact yields_pure rfl
  refine hlower.bind ?_
  intro _ w₁ hmatrix
  exact yields_of_exec (exec_report _ w₁) hmatrix

/-! ## Passes -/

/-- **The downward pass over `j` clean columns** changes nothing and takes their pivots. -/
theorem descend_clean {k : ℕ} {Q : List ℕ → Work → Prop} (j : ℕ) : ∀ (c : ℕ) (w : Work),
    G.size = w.matrix.rows → c + j ≤ w.matrix.rows →
    (∀ i, c ≤ i → i < c + j → w.matrix.CleanAt i) →
    (∀ w', w'.matrix = w.matrix → Yields F (descend G k (c + j) (c + j)) w' fun columns =>
      Q (List.range' c j ++ columns)) →
    Yields F (descend G (j + k) c c) w Q := by
  induction j generalizing Q with
  | zero =>
    intro c w _ _ _ hrest
    rw [Nat.zero_add]
    exact hrest w rfl
  | succ j ih =>
    intro c w hsize hle hclean hrest
    have hrows : ¬ w.matrix.rows ≤ c := by omega
    have hmem : ∀ {r}, r ∈ List.range' c (w.matrix.rows - c) ↔ c ≤ r ∧ r < w.matrix.rows :=
      mem_range'_rows (by omega)
    have hpivot : c ∈ List.range' c (w.matrix.rows - c) := hmem.mpr ⟨le_rfl, by omega⟩
    obtain ⟨hone, hzero⟩ := hclean c le_rfl (by omega)
    rw [Nat.succ_add]
    refine yields_matrix_bind ?_
    rw [if_neg hrows]
    dsimp only
    rw [terminalsAt_eq_singleton (List.nodup_range' 1) hpivot fun r hr hne =>
      hzero r (lt_of_le_of_ne (hmem.mp hr).1 (Ne.symm hne)), if_neg (by simp [hone])]
    refine (clearBelow_clean (fun q hq => hsize ▸ (hmem.mp hq).2) hpivot hone).bind ?_
    intro _ w₁ hmatrix
    rw [← hmatrix] at hsize hle hclean
    have hrec : Yields F (descend G (j + k) (c + 1) (c + 1)) w₁
        fun columns => Q (c :: columns) := by
      refine ih (c + 1) w₁ hsize (by omega) (fun i hi hij => hclean i (by omega) (by omega)) ?_
      intro w' hw'
      rw [Nat.add_assoc, Nat.add_comm 1 j]
      exact hrest w' (hw'.trans hmatrix)
    exact hrec.bind fun columns w' hQ => yields_pure hQ

/-- **The downward pass along an order** leaves a matrix that is triangular along it as it is. -/
theorem descendAlong_clean (rest : List ℕ) : ∀ w : Work, rest.Nodup → (∀ q ∈ rest, q < G.size) →
    w.matrix.TriangularTo rest [] →
    Yields F (descendAlong G rest) w fun _ w' => w'.matrix = w.matrix := by
  induction rest with
  | nil => exact fun w _ _ _ => yields_pure rfl
  | cons p rest ih =>
    intro w hnodup hlt htri
    obtain ⟨hbelow, hpairs⟩ := List.pairwise_cons.mp htri.below
    have hone : w.matrix.entry p p = true := htri.diagonal p List.mem_cons_self
    refine yields_matrix_bind ?_
    dsimp only
    rw [terminalsAt_eq_singleton hnodup List.mem_cons_self fun r hr hne =>
      hbelow r ((List.mem_cons.mp hr).resolve_left hne), if_neg (by simp [hone])]
    refine (clearBelow_clean hlt List.mem_cons_self hone).bind ?_
    intro _ w₁ hmatrix
    refine (ih w₁ (List.nodup_cons.mp hnodup).2 (fun q hq => hlt q (List.mem_cons_of_mem _ hq))
      ?_).mono fun _ w' hw' => hw'.trans hmatrix
    rw [hmatrix]
    exact ⟨fun q hq => htri.diagonal q (List.mem_cons_of_mem _ hq), hpairs, by simp⟩

/-- **Pivots by row number do for clean columns**: no graph that is connected as a whole makes the
elimination fail. -/
theorem steinerByRow_clean (hG : G.isConnected = true) (hsize : G.size = w.matrix.rows)
    (hsquare : w.matrix.cols = w.matrix.rows)
    (hclean : ∀ i, i < w.matrix.rows → w.matrix.CleanAt i) :
    Yields F (steinerByRow G true) w fun _ _ => True := by
  refine yields_matrix_bind ?_
  have hdown : Yields F (descend G w.matrix.cols 0 0) w fun columns w' =>
      w'.matrix = w.matrix ∧ columns = List.range w.matrix.rows := by
    rw [hsquare]
    refine descend_clean (k := 0) w.matrix.rows 0 w hsize (by omega)
      (fun i _ hi => hclean i (by omega)) fun w' hw' => yields_pure ⟨hw', ?_⟩
    rw [List.append_nil, List.range_eq_range']
  refine hdown.bind ?_
  rintro columns w₁ ⟨hmatrix, rfl⟩
  rw [← hmatrix] at hsize hclean ⊢
  have hup := ascend_yields (F := F) hG (List.range w₁.matrix.rows) [] w₁ (List.append_nil _).symm
    hsize (echelonTo_range hclean) (clearedFrom_length _ _)
  exact hup.bind fun _ _ _ => yields_pure trivial

/-- **The pass is stuck at column `p`** if the columns before it are clean and the rows from `p` on
do not connect row `p` with some row that holds a one. -/
theorem descend_stuck {p q k : ℕ} (hsize : G.size = w.matrix.rows) (hpq : p < q)
    (hq : w.matrix.entry q p = true) (hone : w.matrix.entry p p = true)
    (hclean : ∀ i, i < p → w.matrix.CleanAt i)
    (hapart : ¬ Relation.ReflTransGen (G.LeadsInto {r | p ≤ r ∧ r < G.size}) p q) :
    Yields True (descend G (p + (k + 1)) 0 0) w fun _ _ => False := by
  have hlt : q < w.matrix.rows := (lt_of_entry hq).1
  refine descend_clean p 0 w hsize (by omega) (fun i _ hi => hclean i (by omega)) ?_
  intro w' hw'
  rw [← hw'] at hsize hq hone hlt
  rw [Nat.zero_add]
  have hmem : ∀ {r}, r ∈ List.range' p (w'.matrix.rows - p) ↔ p ≤ r ∧ r < w'.matrix.rows :=
    mem_range'_rows (by omega)
  refine yields_matrix_bind ?_
  rw [if_neg (by omega)]
  dsimp only
  rw [if_neg (by simp [hone])]
  refine Yields.bind (Q := fun _ _ => False) ?_ fun _ _ h => h.elim
  refine yields_attempt_bind (fun _ _ => trivial) ?_
  intro t ht
  -- a tree to row `q` would be a connection
  obtain ⟨hspans, hroot, _⟩ := CouplingGraph.steinerTree_ok ht
  have hterminal : q ∈ t.nodes :=
    hspans.terminal q (mem_terminalsAt.mpr ⟨hmem.mpr ⟨hpq.le, hlt⟩, .inr hq⟩)
  have hpath := CouplingGraph.reflTransGen_of_reaching hspans.toReaching hterminal
  have hset : {r | r ∈ List.range' p (w'.matrix.rows - p)} = {r | p ≤ r ∧ r < G.size} := by
    ext r
    rw [hsize]
    exact hmem
  rw [hset, hroot] at hpath
  exact absurd hpath hapart

/-! ## Transposes -/

/-- Two qubits that are not connected by the qubits from the first one on. -/
theorem exists_apart (h : ¬ G.SuffixConnected) : ∃ p q, p < q ∧ q < G.size ∧
    ¬ Relation.ReflTransGen (G.LeadsInto {r | p ≤ r ∧ r < G.size}) p q := by
  unfold CouplingGraph.SuffixConnected at h
  push Not at h
  obtain ⟨p, hp⟩ := h
  by_contra hall
  push Not at hall
  refine hp ?_
  by_cases hlt : p < G.size
  · refine CouplingGraph.connectedOn_of_hub ⟨le_rfl, hlt⟩ fun q hq => ?_
    rcases Nat.eq_or_lt_of_le hq.1 with rfl | hpq
    · exact .refl
    · exact hall p q hpq hq.2
  · refine CouplingGraph.connectedOn_iff.mpr fun a ha => absurd ha.2 ?_
    have := ha.1
    omega

/-- **Reducing a matrix by row number says nothing about its transpose.** -/
theorem exists_stuck_transpose (hG : G.isConnected = true) (h : ¬ G.SuffixConnected) :
    ∃ M : ParityMatrix, M.rows = G.size ∧ M.IsInvertible ∧
      (∃ k, ((steiner .byRow true G).plan M).outcome = .ok k) ∧
      ∀ k, ((steiner .byRow true G).plan M.transpose).outcome ≠ .ok k := by
  obtain ⟨p, q, hpq, hq, hapart⟩ := exists_apart h
  have hentry := @entry_addRow_identity G.size p q (by omega) hq hpq.ne
  refine ⟨(identity G.size).addRow p q, by simp, isInvertible_addRow_identity _ hpq.ne, ?_, ?_⟩
  · -- the matrix is upper triangular
    refine Yields.exists_ok (F := False) (Q := fun _ _ => True) ?_ not_false
    refine yields_matrix_bind ?_
    rw [if_neg (by simp)]
    refine steinerByRow_clean hG rfl rfl fun i hi => ⟨?_, fun r hr => ?_⟩
    · exact hentry.mpr (.inl ⟨hi, rfl⟩)
    · rw [Bool.eq_false_iff]
      intro hone
      rcases hentry.mp hone with ⟨_, heq⟩ | ⟨rfl, rfl⟩ <;> omega
  · -- the one beside the diagonal of the transpose stands in column `p`, below
    intro k hk
    refine Yields.of_ok (F := True) (Q := fun _ _ => False) ?_ hk
    refine yields_matrix_bind ?_
    rw [if_neg (by simp)]
    refine yields_matrix_bind ?_
    have hcols : (start ((identity G.size).addRow p q).transpose).matrix.cols =
        p + (G.size - p - 1 + 1) := by
      change G.size = _
      omega
    rw [hcols]
    refine (descend_stuck rfl hpq ?_ ?_ ?_ hapart).bind fun _ _ h => h.elim
    · exact (entry_transpose _ q p).trans (hentry.mpr (.inr ⟨rfl, rfl⟩))
    · exact (entry_transpose _ p p).trans (hentry.mpr (.inl ⟨by omega, rfl⟩))
    · intro i hi
      refine ⟨(entry_transpose _ i i).trans (hentry.mpr (.inl ⟨by omega, rfl⟩)), fun r hr => ?_⟩
      refine (entry_transpose _ r i).trans (Bool.eq_false_iff.mpr fun hone => ?_)
      rcases hentry.mp hone with ⟨_, heq⟩ | ⟨heq, _⟩ <;> omega

end Reduction

end CnotSynthesis
