import CnotSynthesis.Proofs.Elimination.Solving

/-! # Inverse matrices and inverse circuits

* **`ParityMatrix.inverse?_eq_some_iff`** — the computed inverse is the two-sided inverse, and it is
  found whenever there is one.
* **`Circuit.exists_parity_eq`** — every invertible matrix is the matrix of a circuit.
* **`Circuit.WellFormed.inverse?_parity`** — the gates in reverse order carry out the inverse map.
* **`inverse_spec`** — inverses, circuits and reversed circuits together. -/

namespace CnotSynthesis

open ParityMatrix

namespace ParityMatrix

variable {M A B : ParityMatrix}

/-- **A left inverse is the right inverse.** -/
theorem eq_of_mul_eq_identity (hA : A.cols = M.rows) (hB : B.rows = M.cols)
    (hleft : A.mul M = identity M.cols) (hright : M.mul B = identity M.rows) : A = B :=
  calc A = A.mul (identity M.rows) := (mul_identity hA).symm
    _ = A.mul (M.mul B) := by rw [hright]
    _ = (A.mul M).mul B := (mul_mul hA).symm
    _ = B := by rw [hleft, identity_mul hB]

/-- An inverse is computed for invertible matrices only. -/
theorem isInvertible_of_inverse?_eq_some (h : M.inverse? = some B) : M.IsInvertible := by
  rw [inverse?_eq_ite] at h
  split at h
  · next hfull => exact isInvertible_iff.mpr hfull
  · cases h

/-- **The computed inverse is the two-sided inverse**, and it is found whenever there is one. -/
theorem inverse?_eq_some_iff : M.inverse? = some B ↔
    M.cols = M.rows ∧ B.rows = M.rows ∧ B.cols = M.rows ∧
      M.mul B = identity M.rows ∧ B.mul M = identity M.rows := by
  constructor
  · intro h
    have hM := isInvertible_of_inverse?_eq_some h
    obtain ⟨N, hN, hrows, hcols, hNM, hMN⟩ := hM.inverse?_eq
    obtain rfl : N = B := Option.some.inj (hN.symm.trans h)
    exact ⟨hM.cols_eq, hrows, hcols, hMN, hNM⟩
  · rintro ⟨hsquare, hrows, hcols, hMB, hBM⟩
    obtain ⟨N, hN, hNrows, hNcols, hNM, _⟩ :=
      (isInvertible_of_mul_eq hsquare hrows hcols hMB).inverse?_eq
    rw [hN, eq_of_mul_eq_identity hNcols (hrows.trans hsquare.symm) (hsquare.symm ▸ hNM) hMB]

end ParityMatrix

namespace Circuit

variable {c : Circuit} {M : ParityMatrix}

/-! ## Reversed circuits -/

/-- No gate adds a row into itself. -/
theorem target_ne_source (h : ∀ g ∈ c.gates, IsGate c.qubits g) :
    ∀ op ∈ c.gates.map Gate.addition, op.target ≠ op.source := by
  intro op hop
  obtain ⟨g, hg, rfl⟩ := List.mem_map.mp hop
  exact Ne.symm (h g hg).2.2

/-- The reversed circuit joins the same wires. -/
theorem isGate_inverse (h : ∀ g ∈ c.gates, IsGate c.qubits g) :
    ∀ g ∈ c.inverse.gates, IsGate c.qubits g :=
  fun g hg => h g (List.mem_reverse.mp hg)

/-- A reversed circuit has no layout. -/
theorem WellFormed.inverse (h : c.WellFormed) : c.inverse.WellFormed where
  gates := isGate_inverse h.gates
  layout := by
    rintro l ⟨⟩

/-- **The reversed gates undo the gates.** -/
theorem parity_inverse_mul_parity (h : ∀ g ∈ c.gates, IsGate c.qubits g) :
    c.inverse.parity.mul c.parity = identity c.qubits := by
  have hgates : c.inverse.gates.map Gate.addition = (c.gates.map Gate.addition).reverse :=
    List.map_reverse
  rw [parity_mul c.inverse c.rows_parity, apply_eq_addRows, hgates, parity_eq_addRows,
    addRows_reverse (target_ne_source h)]

/-- The gates undo the reversed gates, being the reverse of these. -/
theorem parity_mul_parity_inverse (h : ∀ g ∈ c.gates, IsGate c.qubits g) :
    c.parity.mul c.inverse.parity = identity c.qubits := by
  have hback : c.inverse.inverse.parity = c.parity := by
    simp [parity, apply, Circuit.inverse]
  rw [← hback]
  exact parity_inverse_mul_parity (isGate_inverse h)

/-- **The matrix of the reversed circuit is the inverse matrix.** -/
theorem WellFormed.inverse?_parity (h : c.WellFormed) :
    c.parity.inverse? = some c.inverse.parity := by
  rw [inverse?_eq_some_iff, rows_parity, cols_parity]
  exact ⟨rfl, c.inverse.rows_parity, c.inverse.cols_parity, parity_mul_parity_inverse h.gates,
    parity_inverse_mul_parity h.gates⟩

/-! ## Circuits of invertible matrices -/

/-- **Every invertible matrix is the matrix of a circuit**: the one that Gaussian elimination
leaves. -/
theorem exists_parity_eq (hM : M.IsInvertible) :
    ∃ c : Circuit, c.WellFormed ∧ c.qubits = M.rows ∧ c.parity = M := by
  obtain ⟨c, hsolves, hlayout, _⟩ := Method.solves_gauss none M.rows M rfl hM
  have hparity := hsolves.realises.parity_eq
  rw [hlayout] at hparity
  exact ⟨c, hsolves.realises.wellFormed, hsolves.realises.qubits_eq, hparity⟩

end Circuit

/-- **Inverse matrices**: `M` has a computed inverse, which then is its two-sided inverse, if and
only if it is square and has one, and if and only if it is the matrix of a well-formed circuit on as
many wires as it has rows. The inverse of the matrix of a circuit is that of the reversed circuit. A
circuit has its matrix as long as the matrix can be held. -/
theorem inverse_spec (M : ParityMatrix) :
    (∀ B, M.inverse? = some B ↔ M.isSquare = true ∧ B.rows = M.rows ∧ B.cols = M.rows ∧
      M.mul B = identity M.rows ∧ B.mul M = identity M.rows) ∧
    ((∃ B, M.inverse? = some B) ↔ ∃ c : Circuit, c.WellFormed ∧ c.qubits = M.rows ∧ c.parity = M ∧
      c.parityMap = (requireShape M.rows M.rows).map fun _ => M) ∧
    ∀ c : Circuit, c.WellFormed → c.parity.inverse? = some c.inverse.parity ∧
      c.parityMap.map inverse? = c.inverse.parityMap.map some := by
  refine ⟨?_, ?_, ?_⟩
  · intro B
    rw [inverse?_eq_some_iff, isSquare, beq_iff_eq, eq_comm (a := M.rows)]
  · constructor
    · rintro ⟨B, hB⟩
      obtain ⟨c, hwell, hqubits, hparity⟩ :=
        Circuit.exists_parity_eq (isInvertible_of_inverse?_eq_some hB)
      exact ⟨c, hwell, hqubits, hparity, by rw [hwell.parityMap_eq, hqubits, hparity]⟩
    · rintro ⟨c, hwell, _, rfl, _⟩
      exact ⟨c.inverse.parity, hwell.inverse?_parity⟩
  · intro c hwell
    refine ⟨hwell.inverse?_parity, ?_⟩
    rw [hwell.parityMap_eq, hwell.inverse.parityMap_eq]
    -- the reversed circuit has as many wires, so both can be held or neither
    change _ = ((requireShape c.qubits c.qubits).map fun _ => c.inverse.parity).map some
    cases requireShape c.qubits c.qubits with
    | error breach => rfl
    | ok => exact congrArg Except.ok hwell.inverse?_parity

end CnotSynthesis
