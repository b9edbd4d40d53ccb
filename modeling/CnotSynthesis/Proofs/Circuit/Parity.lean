import CnotSynthesis.Elimination.Reduction
import CnotSynthesis.Proofs.Matrix.RowAdditions
import CnotSynthesis.Proofs.Outcomes

/-! # The matrix of a circuit

A gate is a row addition, so the matrix of a circuit is the identity after the row additions of its
gates.

* **`Circuit.parity_mul`** — multiplying by the matrix of a circuit carries out its gates.
* **`Circuit.prepend c ops`** — the row additions `ops` recorded in `c`, the last one in front;
  **`Circuit.parity_prepend_mul`** — the recorded circuit times the reduced matrix is what the two
  were before.
* **`Circuit.parity_transpose`** — the transposed circuit carries out the transposed map.
* **`Circuit.WellFormed.parityMap_eq`** — a well-formed circuit that can be held has a matrix. -/

namespace CnotSynthesis

/-- The gate that carries out a row addition. -/
def RowAddition.gate (op : RowAddition) : Gate := ⟨op.source, op.target⟩

namespace Circuit

open ParityMatrix

/-! ## Gates as row additions -/

/-- Applying a circuit makes the row additions of its gates. -/
theorem apply_eq_addRows (c : Circuit) (M : ParityMatrix) :
    c.apply M = M.addRows (c.gates.map Gate.addition) := by
  unfold apply addRows
  rw [List.foldl_map]
  rfl

/-- The matrix of a circuit is the identity after these row additions. -/
theorem parity_eq_addRows (c : Circuit) :
    c.parity = (identity c.qubits).addRows (c.gates.map Gate.addition) := c.apply_eq_addRows _

/-- The matrix of a circuit has a row for every wire. -/
theorem rows_parity (c : Circuit) : c.parity.rows = c.qubits := by
  rw [parity_eq_addRows]
  exact rows_addRows _ _

/-- The matrix of a circuit has a column for every wire. -/
theorem cols_parity (c : Circuit) : c.parity.cols = c.qubits := by
  rw [parity_eq_addRows]
  exact cols_addRows _ _

/-- **Multiplying by the matrix of a circuit carries out its gates.** -/
theorem parity_mul (c : Circuit) {M : ParityMatrix} (h : M.rows = c.qubits) :
    c.parity.mul M = c.apply M := by
  rw [parity_eq_addRows, addRows_mul, identity_mul h, apply_eq_addRows]

/-! ## Recorded row additions -/

/-- Row additions recorded one after the other: the last one stands in front. -/
def prepend (c : Circuit) (ops : List RowAddition) : Circuit :=
  { c with gates := (ops.map RowAddition.gate).reverse ++ c.gates }

/-- Nothing recorded, nothing changed. -/
@[simp] theorem prepend_nil (c : Circuit) : c.prepend [] = c := rfl

/-- Row additions recorded in two parts. -/
theorem prepend_append (c : Circuit) (xs ys : List RowAddition) :
    c.prepend (xs ++ ys) = (c.prepend xs).prepend ys := by
  simp [prepend]

/-- The gates in front carry out the row additions, the last one first. -/
theorem additions_prepend (c : Circuit) (ops : List RowAddition) :
    (c.prepend ops).gates.map Gate.addition = ops.reverse ++ c.gates.map Gate.addition := by
  have hid : Gate.addition ∘ RowAddition.gate = id := rfl
  simp [prepend, List.map_reverse, hid]

/-- **Row additions recorded in front and read backwards** are the row additions in order. -/
theorem reverse_additions_prepend (c : Circuit) (ops : List RowAddition) :
    (c.prepend ops).gates.reverse.map Gate.addition =
      c.gates.reverse.map Gate.addition ++ ops := by
  rw [List.map_reverse, additions_prepend, List.reverse_append, List.reverse_reverse,
    ← List.map_reverse]

/-- Every recorded row addition adds a gate. -/
theorem count_prepend (c : Circuit) (ops : List RowAddition) :
    (c.prepend ops).count = c.count + ops.length := by
  simp [count, prepend, Nat.add_comm]

/-- The check of a gate is the condition on its wires. -/
theorem checkGate_eq_ok_iff (c : Circuit) (g : Gate) :
    c.checkGate g = .ok () ↔ IsGate c.qubits g := by
  unfold checkGate IsGate
  split
  · next h => simp [h]
  · split
    · next h => simp [h]
    · split
      · next h => simp [h]
      · next hc ht hne => simpa [hne] using ⟨by omega, by omega⟩

/-- When a gate can be put behind the others. -/
theorem push_eq_ok_iff {c d : Circuit} {g : Gate} :
    c.push g = .ok d ↔ IsGate c.qubits g ∧ d = { c with gates := c.gates ++ [g] } := by
  rw [← checkGate_eq_ok_iff]
  exact check_pure_eq_ok_iff

/-- When a gate can be put in front of the others. -/
theorem pushFront_eq_ok_iff {c d : Circuit} {g : Gate} :
    c.pushFront g = .ok d ↔ IsGate c.qubits g ∧ d = { c with gates := g :: c.gates } := by
  rw [← checkGate_eq_ok_iff]
  exact check_pure_eq_ok_iff

/-- A proper row addition is recorded. -/
theorem recordRow_of_isProper (c : Circuit) {op : RowAddition} (h : op.IsProper c.qubits) :
    c.recordRow op.target op.source = .ok (c.prepend [op]) :=
  pushFront_eq_ok_iff.mpr ⟨⟨h.2.1, h.1, Ne.symm h.2.2⟩, rfl⟩

/-- A recorded row addition is proper. -/
theorem isProper_of_recordRow {c d : Circuit} {t s : ℕ} (h : c.recordRow t s = .ok d) :
    (⟨t, s⟩ : RowAddition).IsProper c.qubits := by
  obtain ⟨⟨hs, ht, hne⟩, _⟩ := pushFront_eq_ok_iff.mp h
  exact ⟨ht, hs, Ne.symm hne⟩

/-- Two permutations of the wires, and nothing else, are attached. -/
theorem setLayout_eq_ok_iff {c d : Circuit} {l : Layout} : c.setLayout l = .ok d ↔
    (IsPermutation l.rowPerm c.qubits ∧ IsPermutation l.colPerm c.qubits) ∧
      d = { c with layout := some l } := by
  rw [← Permutation.check_eq_ok_iff, ← Permutation.check_eq_ok_iff, and_assoc]
  exact check_bind_eq_ok_iff.trans (and_congr_right' check_pure_eq_ok_iff)

/-- **The recorded circuit times the reduced matrix** is what the two were before. -/
theorem parity_prepend_mul (c : Circuit) {M : ParityMatrix} (hM : M.rows = c.qubits)
    {ops : List RowAddition} (hops : ∀ op ∈ ops, op.target ≠ op.source) :
    (c.prepend ops).parity.mul (M.addRows ops) = c.parity.mul M := by
  have hrows : (M.addRows ops).rows = (c.prepend ops).qubits := (rows_addRows M ops).trans hM
  rw [parity_mul _ hrows, parity_mul _ hM, apply_eq_addRows, apply_eq_addRows, additions_prepend,
    addRows_append, addRows_reverse hops]

/-- Proper row additions, recorded in front, keep a circuit well formed. -/
theorem WellFormed.prepend {c : Circuit} (h : c.WellFormed) {ops : List RowAddition}
    (hops : ∀ op ∈ ops, op.IsProper c.qubits) : (c.prepend ops).WellFormed where
  gates := by
    intro g hg
    rcases List.mem_append.mp hg with hg | hg
    · obtain ⟨op, hop, rfl⟩ := List.mem_map.mp (List.mem_reverse.mp hg)
      obtain ⟨ht, hs, hne⟩ := hops op hop
      exact ⟨hs, ht, Ne.symm hne⟩
    · exact h.gates g hg
  layout := h.layout

/-! ## Transposed circuits -/

/-- The additions of a list of gates followed by another are a product. -/
theorem addRows_identity_append (n : ℕ) (xs ys : List RowAddition) :
    (identity n).addRows (xs ++ ys) =
      ((identity n).addRows ys).mul ((identity n).addRows xs) := by
  have hrows : ((identity n).addRows xs).rows = n := rows_addRows _ _
  rw [addRows_append, addRows_mul, identity_mul hrows]

/-- The matrix of one gate transposed is the matrix of the flipped gate. -/
theorem transpose_addRow_identity {n : ℕ} {g : Gate} (h : IsGate n g) :
    ((identity n).addRow g.target g.control).transpose =
      (identity n).addRow g.flipped.target g.flipped.control := by
  obtain ⟨hc, ht, hne⟩ := h
  refine ext_entry (by rfl) (by rfl) ?_
  intro r j hr hj
  have hr : r < n := hr
  have hj : j < n := hj
  have hflip : g.flipped.target = g.control ∧ g.flipped.control = g.target := ⟨rfl, rfl⟩
  rw [entry_transpose, entry_addRow, entry_addRow, hflip.1, hflip.2]
  simp only [entry_identity, rows_identity, ht, hc, hr, hj, and_true, decide_true, Bool.true_and]
  -- both are one on the diagonal and at the one place of the gate
  grind

/-- **The transposed circuit carries out the transposed map.** -/
theorem parity_transpose {c : Circuit} (h : ∀ g ∈ c.gates, IsGate c.qubits g) :
    c.transpose.parity = c.parity.transpose := by
  rw [parity_eq_addRows, parity_eq_addRows]
  change (identity c.qubits).addRows ((c.gates.reverse.map Gate.flipped).map Gate.addition) = _
  generalize c.gates = gates at h
  induction gates with
  | nil => exact (transpose_identity c.qubits).symm
  | cons g gates ih =>
    have hrest := ih fun g' hg' => h g' (List.mem_cons_of_mem _ hg')
    have hcols : ((identity c.qubits).addRows (gates.map Gate.addition)).cols = c.qubits :=
      cols_addRows _ _
    have hfront : (g :: gates).map Gate.addition = [g.addition] ++ gates.map Gate.addition := rfl
    rw [List.reverse_cons, List.map_append, List.map_append, addRows_identity_append, hrest, hfront,
      addRows_identity_append, transpose_mul hcols]
    congr 1
    exact (transpose_addRow_identity (h g List.mem_cons_self)).symm

/-- The transposed circuit joins the same wires. -/
theorem isGate_transpose {c : Circuit} (h : ∀ g ∈ c.gates, IsGate c.qubits g) :
    ∀ g ∈ c.transpose.gates, IsGate c.qubits g := by
  intro g hg
  obtain ⟨g', hg', rfl⟩ := List.mem_map.mp hg
  obtain ⟨hc, ht, hne⟩ := h g' (List.mem_reverse.mp hg')
  exact ⟨ht, hc, Ne.symm hne⟩

/-- A transposed circuit has its layout the other way round. -/
theorem WellFormed.transpose {c : Circuit} (h : c.WellFormed) : c.transpose.WellFormed where
  gates := isGate_transpose h.gates
  layout := by
    intro l hl
    obtain ⟨l', hl', rfl⟩ := Option.mem_map.mp hl
    obtain ⟨hrow, hcol⟩ := h.layout l' hl'
    exact ⟨hcol, hrow⟩

/-! ## The checked matrix -/

/-- **A circuit of gates on its wires has a matrix** if that can be held, whatever its layout. -/
theorem parityMap_of_isGate {c : Circuit} (h : ∀ g ∈ c.gates, IsGate c.qubits g) :
    c.parityMap = (requireShape c.qubits c.qubits).map fun _ => c.parity := by
  have hnone : c.gates.findSome? (fun g => rowBreach? c.qubits g.target g.control) = none := by
    refine List.findSome?_eq_none_iff.mpr ?_
    intro g hg
    obtain ⟨hc, ht, hne⟩ := h g hg
    rw [rowBreach?, if_neg (by simp [ht, hc]), if_neg (Ne.symm hne)]
  unfold parityMap
  rw [hnone]
  cases requireShape c.qubits c.qubits <;> rfl

/-- **A well-formed circuit that can be held has a matrix.** -/
theorem WellFormed.parityMap_eq {c : Circuit} (h : c.WellFormed) :
    c.parityMap = (requireShape c.qubits c.qubits).map fun _ => c.parity :=
  parityMap_of_isGate h.gates

end Circuit

end CnotSynthesis
