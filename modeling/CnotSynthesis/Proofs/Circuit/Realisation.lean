import CnotSynthesis.Proofs.Circuit.Parity
import CnotSynthesis.Proofs.Permutation

/-! # Circuits for a matrix

* **`ParityMatrix.relabel_relabel`**, **`ParityMatrix.relabel_mul_relabel`** — relabelling twice,
  and the product of relabelled matrices.
* **`ParityMatrix.laidOut`** — a matrix relabelled by a layout, if there is one.
* **`Circuit.Realises c M E`** — the circuit carries out `M` as its layout relabels it, with gates
  that `E` allows.
* **`Circuit.Realises.transpose`** — turned around, it carries out the transpose.
* **`Circuit.Realises.placeOver`** — a circuit for a relabelled matrix is one for the matrix once
  the relabelling is composed with its layout; **`Circuit.Realises.place`** if it has none. -/

namespace CnotSynthesis

namespace ParityMatrix

variable {M N : ParityMatrix} {p q : List ℕ}

/-- A matrix that can be held has rows that can be listed. -/
theorem lt_addressLimit {n : ℕ} (hroom : requireShape n n = .ok ()) : n < addressLimit := by
  unfold requireShape requireRoom at hroom
  split at hroom
  · next hlt =>
    rcases Nat.eq_zero_or_pos n with rfl | hpos
    · decide
    · have hwords : 1 ≤ wordCount n := by
        unfold wordCount
        omega
      exact Nat.lt_of_le_of_lt (Nat.le_mul_of_pos_right n hwords) hlt
  · cases hroom

/-! ## Relabelled matrices -/

/-- A matrix is relabelled by permutations of its rows and columns, and by nothing else. -/
theorem relabel?_eq_ok_iff : M.relabel? p q = .ok N ↔
    IsPermutation p M.rows ∧ IsPermutation q M.cols ∧ N = M.relabel p q := by
  rw [← Permutation.check_eq_ok_iff, ← Permutation.check_eq_ok_iff]
  exact check_bind_eq_ok_iff.trans (and_congr_right' check_pure_eq_ok_iff)

/-- Permutations are accepted. -/
theorem relabel?_eq (hp : IsPermutation p M.rows) (hq : IsPermutation q M.cols) :
    M.relabel? p q = .ok (M.relabel p q) := relabel?_eq_ok_iff.mpr ⟨hp, hq, rfl⟩

/-- Only permutations relabel. -/
theorem relabel?_ok (h : M.relabel? p q = .ok N) :
    IsPermutation p M.rows ∧ IsPermutation q M.cols ∧ N = M.relabel p q := relabel?_eq_ok_iff.mp h

/-- Relabelling by the identity changes nothing. -/
theorem relabel_range (M : ParityMatrix) :
    M.relabel (List.range M.rows) (List.range M.cols) = M := by
  refine ext_entry rfl rfl ?_
  intro r c hr hc
  have hr : r < M.rows := hr
  have hc : c < M.cols := hc
  rw [entry_relabel _ _ _ hr hc, Permutation.getD_range hr, Permutation.getD_range hc]

/-- **Relabelling twice** is relabelling by the composed permutations. -/
theorem relabel_relabel {p' q' : List ℕ} (hp : IsPermutation p' M.rows)
    (hq : IsPermutation q' M.cols) :
    (M.relabel p q).relabel p' q' =
      M.relabel (Permutation.compose p p') (Permutation.compose q q') := by
  refine ext_entry rfl rfl ?_
  intro r c hr hc
  have hr : r < M.rows := hr
  have hc : c < M.cols := hc
  rw [entry_relabel (M.relabel p q) _ _ hr hc, entry_relabel M _ _ (hp.getD_lt hr) (hq.getD_lt hc),
    entry_relabel M _ _ hr hc, Permutation.getD_compose _ (hp.length_eq ▸ hr),
    Permutation.getD_compose _ (hq.length_eq ▸ hc)]

/-- **The product of relabelled matrices**: the labels between them cancel. -/
theorem relabel_mul_relabel {m : List ℕ} (hm : IsPermutation m M.cols) (hMN : M.cols = N.rows) :
    (M.relabel p m).mul (N.relabel m q) = (M.mul N).relabel p q := by
  refine ext_entry rfl rfl ?_
  intro r c hr hc
  have hr : r < M.rows := hr
  have hc : c < N.cols := hc
  apply bitValue_injective
  rw [bitValue_entry_mul, entry_relabel (M.mul N) _ _ hr hc, bitValue_entry_mul, cols_relabel]
  let f : ℕ → ZMod 2 := fun k =>
    bitValue (M.entry (p.getD r 0) k) * bitValue (N.entry k (q.getD c 0))
  calc ∑ k ∈ Finset.range M.cols,
        bitValue ((M.relabel p m).entry r k) * bitValue ((N.relabel m q).entry k c)
      = ∑ k ∈ Finset.range m.length, f (m.getD k 0) := by
        rw [hm.length_eq]
        refine Finset.sum_congr rfl fun k hk => ?_
        have hk := Finset.mem_range.mp hk
        rw [entry_relabel _ _ _ hr hk, entry_relabel _ _ _ (hMN ▸ hk) hc]
    _ = ∑ k ∈ Finset.range M.cols, f k := by rw [sum_range_getD hm.nodup f, hm.toFinset_eq]

/-- Relabelling rows and columns alike leaves the identity alone. -/
theorem relabel_identity {n : ℕ} (hp : IsPermutation p n) :
    (identity n).relabel p p = identity n := by
  refine ext_entry rfl rfl ?_
  intro r c hr hc
  have hr : r < n := hr
  have hc : c < n := hc
  rw [entry_relabel _ _ _ hr hc, entry_identity, entry_identity, decide_eq_true hr,
    decide_eq_true (hp.getD_lt hr), Bool.true_and, Bool.true_and, Bool.eq_iff_iff, beq_iff_eq,
    beq_iff_eq]
  exact ⟨hp.getD_inj hr hc, fun h => h ▸ rfl⟩

/-- Relabelling the transpose exchanges the two permutations. -/
theorem transpose_relabel_transpose (M : ParityMatrix) (p q : List ℕ) :
    (M.transpose.relabel p q).transpose = M.relabel q p := by
  refine ext_entry rfl rfl ?_
  intro r c hr hc
  have hr : r < M.rows := hr
  have hc : c < M.cols := hc
  rw [entry_transpose, entry_relabel _ _ _ (by exact hc) (by exact hr), entry_transpose,
    entry_relabel _ _ _ hr hc]

end ParityMatrix

/-- A layout after relabelling by `rows` and `cols`. -/
def Layout.after (l : Layout) (rows cols : List ℕ) : Layout :=
  ⟨Permutation.compose rows l.rowPerm, Permutation.compose cols l.colPerm⟩

/-- A layout on top of the identity is that layout. -/
theorem Layout.after_identity {rows cols : List ℕ} {n : ℕ} (hrows : rows.length = n)
    (hcols : cols.length = n) : (Layout.identity n).after rows cols = ⟨rows, cols⟩ := by
  have hrow := Permutation.compose_range rows
  have hcol := Permutation.compose_range cols
  rw [hrows] at hrow
  rw [hcols] at hcol
  unfold Layout.after Layout.identity
  rw [hrow, hcol]

namespace ParityMatrix

variable {M : ParityMatrix}

/-- The matrix relabelled by a layout, if there is one. -/
def laidOut (M : ParityMatrix) : Option Layout → ParityMatrix
  | none => M
  | some l => M.relabel l.rowPerm l.colPerm

/-- A missing layout is a trivial one. -/
theorem laidOut_eq (hsquare : M.cols = M.rows) (l? : Option Layout) :
    M.laidOut l? = M.relabel (l?.getD (Layout.identity M.rows)).rowPerm
      (l?.getD (Layout.identity M.rows)).colPerm := by
  cases l? with
  | none =>
    have hrange := M.relabel_range
    rw [hsquare] at hrange
    exact hrange.symm
  | some l => rfl

/-- Laying out the transpose flips the layout. -/
theorem transpose_laidOut_transpose (M : ParityMatrix) (l? : Option Layout) :
    (M.transpose.laidOut l?).transpose = M.laidOut (l?.map Layout.flipped) := by
  cases l? with
  | none => exact transpose_transpose M
  | some l => exact transpose_relabel_transpose M l.rowPerm l.colPerm

end ParityMatrix

namespace Circuit

variable {c : Circuit} {M : ParityMatrix} {E F : ℕ → ℕ → Prop}

/-- The layout of a circuit on `n` qubits, trivial if there is none. -/
theorem WellFormed.isPermutation_layout {n : ℕ} (h : c.WellFormed) (hqubits : c.qubits = n) :
    IsPermutation (c.layout.getD (Layout.identity n)).rowPerm n ∧
      IsPermutation (c.layout.getD (Layout.identity n)).colPerm n := by
  cases hlayout : c.layout with
  | none => exact ⟨isPermutation_range _, isPermutation_range _⟩
  | some l => exact hqubits ▸ h.layout l hlayout

/-- Attaching two permutations of the wires. -/
theorem setLayout_eq {l : Layout} (hrow : IsPermutation l.rowPerm c.qubits)
    (hcol : IsPermutation l.colPerm c.qubits) :
    c.setLayout l = .ok { c with layout := some l } :=
  setLayout_eq_ok_iff.mpr ⟨⟨hrow, hcol⟩, rfl⟩

/-! ## Circuits for a matrix -/

/-- **A circuit for `M`**, up to its layout, whose gates add rows as `E` allows. -/
structure Realises (c : Circuit) (M : ParityMatrix) (E : ℕ → ℕ → Prop) : Prop where
  wellFormed : c.WellFormed
  qubits_eq : c.qubits = M.rows
  parity_eq : c.parity = M.laidOut c.layout
  allowed : ∀ g ∈ c.gates, E g.target g.control

namespace Realises

/-- More gates may be allowed. -/
theorem mono (h : c.Realises M E) (hEF : ∀ t s, E t s → F t s) : c.Realises M F :=
  { h with allowed := fun g hg => hEF _ _ (h.allowed g hg) }

/-- Turned around, a circuit for the transpose is one for the matrix. -/
theorem transpose (h : c.Realises M.transpose E) (hsquare : M.cols = M.rows) :
    c.transpose.Realises M fun t s => E s t where
  wellFormed := h.wellFormed.transpose
  qubits_eq := h.qubits_eq.trans hsquare
  parity_eq := by
    rw [parity_transpose h.wellFormed.gates, h.parity_eq]
    exact M.transpose_laidOut_transpose c.layout
  allowed := by
    intro g hg
    obtain ⟨g', hg', rfl⟩ := List.mem_map.mp hg
    exact h.allowed g' (List.mem_reverse.mp hg')

/-- The layout, or the identity for want of one, permutes the rows and the columns. -/
theorem isPermutation_layout (h : c.Realises M E) :
    IsPermutation (c.layout.getD (Layout.identity M.rows)).rowPerm M.rows ∧
      IsPermutation (c.layout.getD (Layout.identity M.rows)).colPerm M.rows :=
  h.wellFormed.isPermutation_layout h.qubits_eq

/-- **A circuit for a relabelled matrix**, with the relabelling composed with its layout. -/
theorem placeOver {rows cols : List ℕ} (h : c.Realises (M.relabel rows cols) E)
    (hsquare : M.cols = M.rows) (hrows : IsPermutation rows M.rows)
    (hcols : IsPermutation cols M.rows) :
    { c with layout := some ((c.layout.getD (Layout.identity M.rows)).after rows cols) }.Realises
      M E where
  wellFormed := by
    obtain ⟨hrow, hcol⟩ := h.isPermutation_layout
    refine ⟨h.wellFormed.gates, ?_⟩
    rintro _ ⟨⟩
    have hqubits : c.qubits = M.rows := h.qubits_eq
    exact ⟨hqubits ▸ hrows.compose hrow, hqubits ▸ hcols.compose hcol⟩
  qubits_eq := h.qubits_eq
  parity_eq := by
    obtain ⟨hrow, hcol⟩ := h.isPermutation_layout
    have hcols : (M.relabel rows cols).cols = (M.relabel rows cols).rows := hsquare
    refine (h.parity_eq.trans (ParityMatrix.laidOut_eq hcols c.layout)).trans ?_
    refine ParityMatrix.relabel_relabel hrow ?_
    rw [hsquare]
    exact hcol
  allowed := h.allowed

/-- A circuit without a layout gets the relabelling as it is. -/
theorem place {rows cols : List ℕ} (h : c.Realises (M.relabel rows cols) E)
    (hlayout : c.layout = none) (hsquare : M.cols = M.rows) (hrows : IsPermutation rows M.rows)
    (hcols : IsPermutation cols M.rows) :
    { c with layout := some ⟨rows, cols⟩ }.Realises M E := by
  have hplaced := h.placeOver hsquare hrows hcols
  rwa [hlayout, Option.getD_none, Layout.after_identity hrows.length_eq hcols.length_eq] at hplaced

/-- The checked matrix of a circuit for a matrix that can be held. -/
theorem parityMap_eq (h : c.Realises M E)
    (hroom : ParityMatrix.requireShape M.rows M.rows = .ok ()) :
    c.parityMap = .ok (M.laidOut c.layout) := by
  rw [h.wellFormed.parityMap_eq, h.qubits_eq, hroom, h.parity_eq]
  rfl

end Realises

end Circuit

end CnotSynthesis
