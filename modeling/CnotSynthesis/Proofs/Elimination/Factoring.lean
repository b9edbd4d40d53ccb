import CnotSynthesis.Proofs.Circuit.Inverse

/-! # Eliminations factor the matrix

An elimination that goes through splits its matrix into a circuit and a rest, also where the rest is
not the identity: the matrix is singular, or it was reduced downwards only.

* **`Run.Factors r M E c`** — the run left the circuit `c`, and `c` times the matrix left is `M`.
* **`Plan.factors_record`** — every plan that goes through from an empty circuit does that; so do
  **`Method.factors_gauss`**, **`Method.factors_steiner`** and **`Method.factors_rowCol`**.
* **`Run.Factors.parity_eq_iff`** — the circuit is one for the matrix exactly if the identity is
  left. -/

namespace CnotSynthesis

open ParityMatrix

variable {G? : Option CouplingGraph} {M : ParityMatrix} {E : ℕ → ℕ → Prop} {c : Circuit}

/-- The test for the identity compares with the identity of that size. -/
theorem ParityMatrix.isIdentity_iff : M.isIdentity = true ↔ M = identity M.rows := by
  simp only [isIdentity, isSquare, Bool.and_eq_true, beq_iff_eq]
  refine ⟨And.right, fun h => ⟨?_, h⟩⟩
  conv_rhs => rw [h]
  rfl

/-- The matrix of a circuit is invertible. -/
theorem Circuit.WellFormed.isInvertible_parity (h : c.WellFormed) : c.parity.IsInvertible :=
  isInvertible_of_inverse?_eq_some h.inverse?_parity

/-- **A factored matrix**: a circuit without a layout, times what is left. -/
structure Run.Factors (r : Run ℕ) (M : ParityMatrix) (E : ℕ → ℕ → Prop) (c : Circuit) : Prop
    extends r.Makes M.rows c where
  layout_eq : c.layout = none
  rows_eq : r.matrix.rows = M.rows
  parity_mul : c.parity.mul r.matrix = M
  allowed : ∀ g ∈ c.gates, E g.target g.control

namespace Run.Factors

variable {r : Run ℕ}

/-- **The circuit is one for the matrix exactly if the identity is left.** -/
theorem parity_eq_iff (h : r.Factors M E c) : c.parity = M ↔ r.matrix = identity M.rows := by
  constructor
  · intro hparity
    -- the matrix of the circuit can be cancelled
    have hinverse := Circuit.parity_inverse_mul_parity h.wellFormed.gates
    calc r.matrix
      _ = (identity c.qubits).mul r.matrix :=
        (identity_mul (h.rows_eq.trans h.qubits_eq.symm)).symm
      _ = (c.inverse.parity.mul c.parity).mul r.matrix := by rw [hinverse]
      _ = c.inverse.parity.mul (c.parity.mul r.matrix) := mul_mul (by
        rw [Circuit.cols_parity, Circuit.rows_parity]
        rfl)
      _ = c.inverse.parity.mul c.parity := by rw [h.parity_mul, hparity]
      _ = identity M.rows := by rw [hinverse, h.qubits_eq]
  · intro hidentity
    have hmul := h.parity_mul
    rwa [hidentity, mul_identity (c.cols_parity.trans h.qubits_eq)] at hmul

/-- If the identity is left, the circuit is one for the matrix, with the gates that are allowed. -/
theorem realises (h : r.Factors M E c) (hidentity : r.matrix = identity M.rows) :
    c.Realises M E where
  wellFormed := h.wellFormed
  qubits_eq := h.qubits_eq
  parity_eq := by
    rw [h.layout_eq]
    exact h.parity_eq_iff.mpr hidentity
  allowed := h.allowed

/-- Then the matrix is invertible. -/
theorem isInvertible (h : r.Factors M E c) (hidentity : r.matrix = identity M.rows) :
    M.IsInvertible :=
  h.parity_eq_iff.mpr hidentity ▸ h.wellFormed.isInvertible_parity

end Run.Factors

/-- **A plan that goes through**, recorded in an empty circuit, factors its matrix. -/
theorem Plan.factors_record (p : Plan ℕ) {k : ℕ} (hsteps : Work.Steps E (Work.start M) p.work)
    (hE : ∀ t s, E t s → (⟨t, s⟩ : RowAddition).IsProper M.rows)
    (hk : (p.record M (some (Circuit.empty M.rows))).outcome = .ok k) :
    ∃ c, (p.record M (some (Circuit.empty M.rows))).Factors M E c := by
  obtain ⟨c, hrecord, hlayout, hqubits, hwell, hmul, hgates⟩ :=
    p.record_empty hsteps hE (Plan.eq_of_record_ok hk).1
  rw [hrecord]
  exact ⟨c, ⟨⟨k, rfl⟩, rfl, hwell, hqubits⟩, hlayout, hsteps.rows_eq, hmul, hgates⟩

namespace Method

/-- Gaussian elimination factors its matrix, over any gates. -/
theorem factors_gauss (full : Bool) (G? : Option CouplingGraph) {k : ℕ}
    (hk : ((Method.gauss full).reduce G? M (some (Circuit.empty M.rows))).outcome = .ok k) :
    ∃ c, ((Method.gauss full).reduce G? M (some (Circuit.empty M.rows))).Factors M
      (Routed none M.rows) c := by
  rw [reduce_gauss] at hk ⊢
  exact Plan.factors_record _ ((steps_gaussPlan full M).mono fun _ _ h => ⟨h, by simp⟩)
    (fun _ _ h => h.1) hk

/-- Elimination along Steiner trees factors its matrix, over routed gates. -/
theorem factors_steiner (full : Bool) (order : PivotOrder) {k : ℕ}
    (hk : ((Method.steiner full order).reduce G? M (some (Circuit.empty M.rows))).outcome = .ok k) :
    ∃ c, ((Method.steiner full order).reduce G? M (some (Circuit.empty M.rows))).Factors M
      (Routed G? M.rows) c := by
  rw [reduce_steiner] at hk ⊢
  exact Plan.factors_record _ (steps_steinerReduction full order G? (Work.start M))
    (fun _ _ h => h.1) hk

/-- Tied vertex elimination factors its matrix, over routed gates. -/
theorem factors_rowCol {k : ℕ}
    (hk : (Method.rowCol.reduce G? M (some (Circuit.empty M.rows))).outcome = .ok k) :
    ∃ c, (Method.rowCol.reduce G? M (some (Circuit.empty M.rows))).Factors M
      (Routed G? M.rows) c := by
  rw [reduce_rowCol] at hk ⊢
  exact Plan.factors_record _ (Reduction.steps_rowCol G? (Work.start M)) (fun _ _ h => h.1) hk

end Method

end CnotSynthesis
