import CnotSynthesis.Matrix.Contract
import CnotSynthesis.Proofs.Circuit.Inverse
import CnotSynthesis.Proofs.Circuit.Layering

/-! # The algebra of circuits, and its column side

Row additions multiply from the left and are recorded in front of the gates, column additions
multiply from the right and are recorded behind them. Transposition exchanges the two sides, so what
is known of rows carries over to columns.

* **`ParityMatrix.transpose_addCol`**, **`ParityMatrix.addCols_eq`** — additions of columns are
  additions of rows of the transpose.
* **`ParityMatrix.addRows?`**, **`addCols?`**, **`Circuit.recordRows`**, **`recordCols`** — a whole
  sequence of checked additions. They go through for proper ones (`foldlM_eq_ok`).
* **`Circuit.follow_empty`** — what is recorded for columns is the transpose of what is recorded for
  rows; **`Circuit.addCols_mul_parity`** — the reduced matrix times the recorded circuit is the
  matrix.
* **`Circuit.Laws`**, **`Circuit.algebra_specification`** — products, inverses and transposes of
  circuits, and the dual recordings. -/

namespace CnotSynthesis

namespace ParityMatrix

/-! ## Additions of columns -/

/-- The additions carried out one after the other on the columns. -/
def addCols (M : ParityMatrix) (ops : List RowAddition) : ParityMatrix :=
  ops.foldl (fun M op => M.addCol op.target op.source) M

/-- **An addition of columns is one of rows of the transpose.** -/
theorem transpose_addCol (M : ParityMatrix) (t s : ℕ) :
    (M.addCol t s).transpose = M.transpose.addRow t s := by
  refine ext_entry rfl rfl ?_
  intro r c _ _
  rw [entry_transpose, entry_addCol, entry_addRow, entry_transpose, entry_transpose,
    entry_transpose, rows_transpose]

/-- Additions of columns, one after the other, are those of rows of the transpose. -/
theorem transpose_addCols (M : ParityMatrix) (ops : List RowAddition) :
    (M.addCols ops).transpose = M.transpose.addRows ops := by
  induction ops generalizing M with
  | nil => rfl
  | cons op ops ih =>
    rw [addRows_cons, ← transpose_addCol]
    exact ih (M.addCol op.target op.source)

/-- Additions of columns are made on the transpose and transposed back. -/
theorem addCols_eq (M : ParityMatrix) (ops : List RowAddition) :
    M.addCols ops = (M.transpose.addRows ops).transpose := by
  rw [← transpose_addCols, transpose_transpose]

/-! ## Checked additions -/

/-- Checked additions of rows, one after the other. -/
def addRows? (M : ParityMatrix) (ops : List RowAddition) : Except Breach ParityMatrix :=
  ops.foldlM (fun M op => M.addRow? op.target op.source) M

/-- Checked additions of columns, one after the other. -/
def addCols? (M : ParityMatrix) (ops : List RowAddition) : Except Breach ParityMatrix :=
  ops.foldlM (fun M op => M.addCol? op.target op.source) M

variable {n : ℕ} {ops : List RowAddition} {M : ParityMatrix}

/-- Proper additions of rows go through. -/
theorem addRows?_eq_ok (hops : ∀ op ∈ ops, op.IsProper n) (hM : M.rows = n) :
    M.addRows? ops = .ok (M.addRows ops) := by
  refine foldlM_eq_ok (fun N : ParityMatrix => N.rows = n) ?_ hM
  intro N hN op hop
  exact ⟨addRow?_of_isProper (hN ▸ hops op hop), hN⟩

/-- Proper additions of columns go through. -/
theorem addCols?_eq_ok (hops : ∀ op ∈ ops, op.IsProper n) (hM : M.cols = n) :
    M.addCols? ops = .ok (M.addCols ops) := by
  refine foldlM_eq_ok (fun N : ParityMatrix => N.cols = n) ?_ hM
  intro N hN op hop
  exact ⟨addCol?_of_isProper (hN ▸ hops op hop), hN⟩

end ParityMatrix

namespace Circuit

open ParityMatrix

variable {n : ℕ} {c d : Circuit} {ops : List RowAddition}

/-! ## Recorded additions -/

/-- Record additions of rows, one after the other. -/
def recordRows (c : Circuit) (ops : List RowAddition) : Except AlgebraError Circuit :=
  ops.foldlM (fun c op => c.recordRow op.target op.source) c

/-- Record additions of columns, one after the other. -/
def recordCols (c : Circuit) (ops : List RowAddition) : Except AlgebraError Circuit :=
  ops.foldlM (fun c op => c.recordCol op.target op.source) c

/-- Additions of columns recorded one after the other: the last one stands behind. -/
def follow (c : Circuit) (ops : List RowAddition) : Circuit :=
  { c with gates := c.gates ++ ops.map fun op => op.gate.flipped }

/-- A proper addition of columns is recorded behind the gates. -/
theorem recordCol_of_isProper {op : RowAddition} (h : op.IsProper c.qubits) :
    c.recordCol op.target op.source = .ok (c.follow [op]) :=
  push_eq_ok_iff.mpr ⟨h, rfl⟩

/-- Proper additions of rows are recorded in front, the last one first. -/
theorem recordRows_eq_ok (hops : ∀ op ∈ ops, op.IsProper n) (hc : c.qubits = n) :
    c.recordRows ops = .ok (c.prepend ops) := by
  have hfold : ops.foldl (fun c op => c.prepend [op]) c = c.prepend ops := by
    clear hops hc
    induction ops generalizing c with
    | nil => rfl
    | cons op ops ih => rw [List.foldl_cons, ih, ← prepend_append, List.singleton_append]
  rw [← hfold]
  refine foldlM_eq_ok (fun d : Circuit => d.qubits = n) ?_ hc
  intro d hd op hop
  exact ⟨recordRow_of_isProper d (hd ▸ hops op hop), hd⟩

/-- Proper additions of columns are recorded behind, the last one last. -/
theorem recordCols_eq_ok (hops : ∀ op ∈ ops, op.IsProper n) (hc : c.qubits = n) :
    c.recordCols ops = .ok (c.follow ops) := by
  have hfold : ops.foldl (fun c op => c.follow [op]) c = c.follow ops := by
    clear hops hc
    induction ops generalizing c with
    | nil => simp [follow]
    | cons op ops ih =>
      rw [List.foldl_cons, ih]
      simp [follow]
  rw [← hfold]
  refine foldlM_eq_ok (fun d : Circuit => d.qubits = n) ?_ hc
  intro d hd op hop
  exact ⟨recordCol_of_isProper (hd ▸ hops op hop), hd⟩

/-- **The two recordings are dual**: on an empty circuit, columns leave the transpose of what rows
leave. -/
theorem follow_empty (n : ℕ) (ops : List RowAddition) :
    (empty n).follow ops = ((empty n).prepend ops).transpose := by
  simp [follow, prepend, transpose, empty]

/-- **The reduced matrix times the recorded circuit** is the matrix. -/
theorem addCols_mul_parity (hops : ∀ op ∈ ops, op.IsProper n) {M : ParityMatrix}
    (hM : M.cols = n) : (M.addCols ops).mul ((empty n).follow ops).parity = M := by
  have hproper : ∀ op ∈ ops, op.IsProper (empty n).qubits := hops
  have hwell : ((empty n).prepend ops).WellFormed := (wellFormed_empty n).prepend hproper
  have hcols : ((empty n).prepend ops).parity.cols = (M.transpose.addRows ops).rows := by
    rw [cols_parity, rows_addRows, rows_transpose, hM]
    rfl
  -- transposed, this is what recorded row additions satisfy
  calc (M.addCols ops).mul ((empty n).follow ops).parity
      = (((empty n).prepend ops).parity.mul (M.transpose.addRows ops)).transpose := by
        rw [follow_empty, parity_transpose hwell.gates, addCols_eq, transpose_mul hcols]
    _ = ((empty n).parity.mul M.transpose).transpose := by
        rw [parity_prepend_mul _ hM fun op hop => (hops op hop).2.2]
    _ = M := by
        rw [parity_mul _ hM]
        exact transpose_transpose M

/-! ## Circuits behind one another -/

/-- Gates behind one another multiply from the left. -/
theorem parity_append (hqubits : d.qubits = c.qubits) :
    ({ c with gates := c.gates ++ d.gates } : Circuit).parity = d.parity.mul c.parity := by
  rw [parity_eq_addRows, List.map_append, addRows_identity_append, parity_eq_addRows d,
    parity_eq_addRows c, hqubits]

/-- Circuits on the same wires, behind one another, stay on them. -/
theorem isGate_append (hc : ∀ g ∈ c.gates, IsGate n g) (hd : ∀ g ∈ d.gates, IsGate n g) :
    ∀ g ∈ c.gates ++ d.gates, IsGate n g :=
  List.forall_mem_append.mpr ⟨hc, hd⟩

/-- The circuit of both has the layout of the first. -/
theorem WellFormed.append (hc : c.WellFormed) (hd : d.WellFormed) (hqubits : d.qubits = c.qubits) :
    ({ c with gates := c.gates ++ d.gates } : Circuit).WellFormed where
  gates := isGate_append hc.gates (hqubits ▸ hd.gates)
  layout := hc.layout

/-- Gates on the rows of a matrix are carried out without a breach. -/
theorem applyGates_eq {gates : List Gate} (hgates : ∀ g ∈ gates, IsGate n g) {M : ParityMatrix}
    (hM : M.rows = n) :
    applyGates gates M = (gates.foldl (fun M g => M.addRow g.target g.control) M, none) := by
  induction gates generalizing M with
  | nil => rfl
  | cons g gates ih =>
    obtain ⟨hcontrol, htarget, hne⟩ := hgates g List.mem_cons_self
    have hproper : g.addition.IsProper M.rows := hM ▸ ⟨htarget, hcontrol, Ne.symm hne⟩
    have hfirst : M.addRow? g.target g.control = .ok (M.addRow g.target g.control) :=
      addRow?_of_isProper hproper
    rw [applyGates, hfirst]
    exact ih (fun g hg => hgates g (List.mem_cons_of_mem _ hg)) hM

/-- **Carrying out the gates is multiplying by the matrix of the circuit.** -/
theorem applyTo_of_isGate (hc : ∀ g ∈ c.gates, IsGate c.qubits g) {M : ParityMatrix}
    (hM : M.rows = c.qubits) : c.applyTo M = (c.parity.mul M, none) := by
  rw [parity_mul c hM]
  exact applyGates_eq hc hM

/-- **The laws of circuits**, for two circuits `c` and `d` on `n` wires, the circuit `e` of both,
and the circuits `r` and `k` that record additions for rows and for columns. -/
structure Laws (n : ℕ) (c d e r k : Circuit) (ops : List RowAddition) : Prop where
  append_eq : c.append d = .ok e
  recordRows_eq : (empty n).recordRows ops = .ok r
  recordCols_eq : (empty n).recordCols ops = .ok k
  /-- Every circuit met here has its matrix as long as that can be held. -/
  parityMap_eq : ∀ x ∈ [c, d, e, c.inverse, c.transpose, r, k],
    x.parityMap = (requireShape n n).map fun _ => x.parity
  /-- The gates multiply by the matrix. -/
  applyTo_eq : ∀ M : ParityMatrix, M.rows = n → c.applyTo M = (c.parity.mul M, none)
  /-- Circuits behind one another multiply their matrices. -/
  parity_append : e.parity = d.parity.mul c.parity
  /-- The reversed circuit has the inverse matrix. -/
  parity_mul_inverse : c.parity.mul c.inverse.parity = identity n
  inverse_mul_parity : c.inverse.parity.mul c.parity = identity n
  /-- The transposed circuit has the transposed matrix. -/
  parity_transpose : c.transpose.parity = c.parity.transpose
  gates_inverse_inverse : c.inverse.inverse.gates = c.gates
  gates_transpose_transpose : c.transpose.transpose.gates = c.gates
  /-- What is recorded for columns is the transpose of what is recorded for rows. -/
  recordings_dual : k = r.transpose
  /-- On the columns of a matrix the additions do what they do on the rows of its transpose, and the
  matrix they lead to times the recorded circuit is the matrix they began with. -/
  columns : ∀ M : ParityMatrix, M.cols = n → ∃ R T : ParityMatrix,
    M.addCols? ops = .ok R ∧ M.transpose.addRows? ops = .ok T ∧ R = T.transpose ∧
      R.mul k.parity = M

/-- **The algebra of circuits**: two circuits of gates on `n` wires, whatever their layouts, and a
list of proper additions obey the laws. -/
theorem algebra_specification (hcn : c.qubits = n) (hdn : d.qubits = n)
    (hc : ∀ g ∈ c.gates, IsGate n g) (hd : ∀ g ∈ d.gates, IsGate n g)
    (hops : ∀ op ∈ ops, op.IsProper n) : ∃ e r k, Laws n c d e r k ops := by
  subst hcn
  have hproper : ∀ op ∈ ops, op.IsProper (empty c.qubits).qubits := hops
  have hr : ((empty c.qubits).prepend ops).WellFormed :=
    (wellFormed_empty c.qubits).prepend hproper
  have hk : ((empty c.qubits).follow ops).WellFormed := follow_empty c.qubits ops ▸ hr.transpose
  have hmap {x : Circuit} (hqubits : x.qubits = c.qubits)
      (hx : ∀ g ∈ x.gates, IsGate c.qubits g) :
      x.parityMap = (requireShape c.qubits c.qubits).map fun _ => x.parity := by
    rw [← hqubits] at hx ⊢
    exact parityMap_of_isGate hx
  exact ⟨_, _, _, {
    append_eq := if_pos hdn
    recordRows_eq := recordRows_eq_ok hops rfl
    recordCols_eq := recordCols_eq_ok hops rfl
    parityMap_eq := by
      simp only [List.forall_mem_cons]
      exact ⟨hmap rfl hc, hmap hdn hd, hmap rfl (isGate_append hc hd), hmap rfl (isGate_inverse hc),
        hmap rfl (isGate_transpose hc), hmap rfl hr.gates, hmap rfl hk.gates, by simp⟩
    applyTo_eq := fun M hM => applyTo_of_isGate hc hM
    parity_append := Circuit.parity_append hdn
    parity_mul_inverse := parity_mul_parity_inverse hc
    inverse_mul_parity := parity_inverse_mul_parity hc
    parity_transpose := Circuit.parity_transpose hc
    gates_inverse_inverse := List.reverse_reverse _
    gates_transpose_transpose := Circuit.gates_transpose_transpose c
    recordings_dual := follow_empty _ _
    columns := fun M hM => ⟨_, _, addCols?_eq_ok hops hM, addRows?_eq_ok hops hM, addCols_eq M ops,
      addCols_mul_parity hops hM⟩ }⟩

/-- Two circuits on three wires, one of which carries a layout that does not fit, and additions that
do not commute. -/
theorem algebra_specification_three :
    let c : Circuit := ⟨3, [⟨0, 1⟩, ⟨1, 2⟩], some ⟨[0, 0], []⟩⟩
    let d : Circuit := ⟨3, [⟨2, 0⟩], none⟩
    let ops : List RowAddition := [⟨0, 1⟩, ⟨1, 2⟩]
    let M := ParityMatrix.ofFn 2 3 fun r c => c == r || c == 2
    (∀ g ∈ c.gates, IsGate 3 g) ∧ (∀ g ∈ d.gates, IsGate 3 g) ∧ (∀ op ∈ ops, op.IsProper 3) ∧
      c.applyTo M.transpose = (c.parity.mul M.transpose, none) ∧
      ∃ e k R, c.append d = .ok e ∧
        e.parity = d.parity.mul c.parity ∧ e.parity ≠ c.parity.mul d.parity ∧
        (empty 3).recordCols ops = .ok k ∧ M.addCols? ops = .ok R ∧ R ≠ M ∧ R.mul k.parity = M := by
  intro c d ops M
  have hc : ∀ g ∈ c.gates, IsGate 3 g := by simp [c, IsGate]
  have hd : ∀ g ∈ d.gates, IsGate 3 g := by simp [d, IsGate]
  have hops : ∀ op ∈ ops, op.IsProper 3 := by decide
  obtain ⟨e, r, k, hlaws⟩ := algebra_specification (c := c) (d := d) rfl rfl hc hd hops
  obtain ⟨R, T, hR, _, _, hback⟩ := hlaws.columns M rfl
  refine ⟨hc, hd, hops, hlaws.applyTo_eq _ rfl, e, k, R, hlaws.append_eq, hlaws.parity_append, ?_,
    hlaws.recordCols_eq, hR, ?_, hback⟩
  · rw [hlaws.parity_append]
    decide
  · rintro rfl
    exact absurd (congrArg Except.toOption hR) (by decide)

end Circuit

end CnotSynthesis
