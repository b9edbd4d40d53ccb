import CnotSynthesis.Proofs.Graph.Couplings
import CnotSynthesis.Proofs.Graph.ShortestPaths

/-! # Lines, rings, grids and complete graphs

* **`CouplingGraph.Standard G`** — `G` is one of these graphs, of any size.
* **`Standard.hasEdge_succ`** — consecutive qubits are coupled; so the qubits from any number on are
  connected (`Standard.connectedOn_from`), and so are all (`Standard.isConnected`).
* **`gridPosition cols q`** — row and column of a qubit along the snake; **`manhattan`** — steps
  between two positions.
* **`CouplingGraph.hasEdge_grid_iff`**, **`CouplingGraph.dist_grid`** — in a grid the qubits one
  step apart are coupled, and distances count steps. -/

namespace CnotSynthesis

/-! ## Positions in a grid -/

/-- Row and column of qubit `q` in a grid of `cols` columns. The rows are run through alternately to
the right and to the left. -/
def gridPosition (cols q : ℕ) : ℕ × ℕ :=
  (q / cols, if q / cols % 2 = 0 then q % cols else cols - 1 - q % cols)

/-- Steps along rows and columns between two positions. -/
def manhattan (p q : ℕ × ℕ) : ℕ := Nat.dist p.1 q.1 + Nat.dist p.2 q.2

/-- A place is at no distance from itself. -/
theorem manhattan_self (p : ℕ × ℕ) : manhattan p p = 0 := by
  simp [manhattan]

/-- Distances in a grid obey the triangle inequality. -/
theorem manhattan_triangle (p q r : ℕ × ℕ) : manhattan p r ≤ manhattan p q + manhattan q r := by
  have hrow := Nat.dist.triangle_inequality p.1 q.1 r.1
  have hcol := Nat.dist.triangle_inequality p.2 q.2 r.2
  unfold manhattan
  omega

/-- Places at no distance are the same. -/
theorem eq_of_manhattan_eq_zero {p q : ℕ × ℕ} (h : manhattan p q = 0) : p = q := by
  unfold manhattan at h
  exact Prod.ext (Nat.eq_of_dist_eq_zero (by omega)) (Nat.eq_of_dist_eq_zero (by omega))

/-- From one position there is a step towards another one that stays between them. -/
theorem exists_manhattan_step {p q : ℕ × ℕ} {k : ℕ} (h : manhattan p q = k + 1) :
    ∃ p', manhattan p p' = 1 ∧ manhattan p' q = k ∧ p'.1 ≤ max p.1 q.1 ∧ p'.2 ≤ max p.2 q.2 := by
  obtain ⟨r, c⟩ := p
  obtain ⟨r', c'⟩ := q
  simp only [manhattan, Nat.dist] at h ⊢
  rcases lt_trichotomy r r' with hr | rfl | hr
  · exact ⟨(r + 1, c), by omega, by omega, by omega, by omega⟩
  · rcases lt_or_gt_of_ne (show c ≠ c' by omega) with hc | hc
    · exact ⟨(r, c + 1), by omega, by omega, by omega, by omega⟩
    · exact ⟨(r, c - 1), by omega, by omega, by omega, by omega⟩
  · exact ⟨(r - 1, c), by omega, by omega, by omega, by omega⟩

section Grid

variable {rows cols : ℕ}

/-- A grid with a cell has columns. -/
theorem cols_pos_of_lt {q : ℕ} (hq : q < rows * cols) : 0 < cols := by
  by_contra h
  simp [Nat.eq_zero_of_not_pos h] at hq

/-- A vertex, numbered row by row, has one row and one column. -/
theorem cell_div_mod (r : ℕ) {c : ℕ} (hc : c < cols) :
    (r * cols + c) / cols = r ∧ (r * cols + c) % cols = c := by
  refine (Nat.div_mod_unique (by omega)).mpr ⟨?_, hc⟩
  rw [Nat.mul_comm, Nat.add_comm]

/-- A cell has one row and one column. -/
theorem cell_inj {r r' c c' : ℕ} (hc : c < cols) (hc' : c' < cols) :
    r * cols + c = r' * cols + c' ↔ r = r' ∧ c = c' := by
  constructor
  · intro h
    obtain ⟨hdiv, hmod⟩ := cell_div_mod r hc
    obtain ⟨hdiv', hmod'⟩ := cell_div_mod r' hc'
    rw [h] at hdiv hmod
    exact ⟨hdiv.symm.trans hdiv', hmod.symm.trans hmod'⟩
  · rintro ⟨rfl, rfl⟩
    rfl

/-- Row and column of the grid make a cell of it. -/
theorem cell_lt {r c : ℕ} (hr : r < rows) (hc : c < cols) : r * cols + c < rows * cols := by
  rw [← Nat.div_lt_iff_lt_mul (by omega), (cell_div_mod r hc).1]
  exact hr

/-- A cell of the grid has its row and its column. -/
theorem gridPosition_lt {q : ℕ} (hq : q < rows * cols) :
    (gridPosition cols q).1 < rows ∧ (gridPosition cols q).2 < cols := by
  have hcols := cols_pos_of_lt hq
  have hmod := Nat.mod_lt q hcols
  refine ⟨(Nat.div_lt_iff_lt_mul hcols).mpr hq, ?_⟩
  unfold gridPosition
  dsimp only
  split <;> omega

/-- Different qubits have different positions. -/
theorem gridPosition_inj (h : 0 < cols) {a b : ℕ}
    (hab : gridPosition cols a = gridPosition cols b) :
    a = b := by
  have hsnake : CouplingGraph.snake cols a = CouplingGraph.snake cols b := by
    change (gridPosition cols a).1 * cols + (gridPosition cols a).2 = _
    rw [hab]
    rfl
  rw [← CouplingGraph.snake_snake h a, hsnake, CouplingGraph.snake_snake h b]

/-- Every position is taken. -/
theorem exists_gridPosition_eq {p : ℕ × ℕ} (hp : p.1 < rows ∧ p.2 < cols) :
    ∃ q, q < rows * cols ∧ gridPosition cols q = p := by
  obtain ⟨r, c⟩ := p
  obtain ⟨hr, hc⟩ : r < rows ∧ c < cols := hp
  have hcols : 0 < cols := by omega
  obtain ⟨hdiv, hmod⟩ := cell_div_mod r hc
  -- the snake leads to the qubit, since it is its own inverse
  refine ⟨CouplingGraph.snake cols (r * cols + c), ?_, ?_⟩
  · rw [← Nat.div_lt_iff_lt_mul hcols, CouplingGraph.snake_div hcols, hdiv]
    exact hr
  · unfold gridPosition
    rw [CouplingGraph.snake_mod hcols, CouplingGraph.snake_div hcols, hdiv, hmod]
    refine Prod.ext rfl ?_
    dsimp only
    split <;> omega

/-- **Consecutive qubits are one step apart**, also where the snake turns. -/
theorem manhattan_gridPosition_succ {q : ℕ} (hcols : 0 < cols) :
    manhattan (gridPosition cols q) (gridPosition cols (q + 1)) = 1 := by
  have hmod := Nat.mod_lt q hcols
  have hsplit := Nat.div_add_mod q cols
  unfold gridPosition manhattan
  rcases Nat.lt_or_ge (q % cols + 1) cols with hin | hend
  · -- in the same row
    have hdiv : (q + 1) / cols = q / cols := by
      rw [← hsplit, Nat.add_assoc, Nat.mul_add_div hcols, Nat.div_eq_of_lt hin,
        Nat.mul_add_div hcols, Nat.div_eq_of_lt hmod]
    have hnext : (q + 1) % cols = q % cols + 1 := by
      rw [← Nat.mod_eq_of_lt hin, Nat.mod_add_mod]
    rw [hdiv, hnext]
    dsimp only [Nat.dist]
    split <;> omega
  · -- one row down, in the column where the last row ended
    have hlast : q + 1 = cols * (q / cols + 1) := by
      rw [Nat.mul_add, Nat.mul_one]
      omega
    have hdiv : (q + 1) / cols = q / cols + 1 := by
      rw [hlast, Nat.mul_div_cancel_left _ hcols]
    have hnext : (q + 1) % cols = 0 := by
      rw [hlast, Nat.mul_mod_right]
    rw [hdiv, hnext]
    dsimp only [Nat.dist]
    split <;> split <;> omega

/-! ## Couplings of a grid -/

namespace CouplingGraph

/-- The listed couplings of a grid lead one step to the right or one step down. -/
theorem mem_gridEdges_iff {p q : ℕ × ℕ} (hp : p.1 < rows ∧ p.2 < cols)
    (hq : q.1 < rows ∧ q.2 < cols) :
    (p.1 * cols + p.2, q.1 * cols + q.2) ∈ gridEdges rows cols ↔
      (q.1 = p.1 ∧ q.2 = p.2 + 1) ∨ (q.1 = p.1 + 1 ∧ q.2 = p.2) := by
  obtain ⟨r, c⟩ := p
  obtain ⟨r', c'⟩ := q
  obtain ⟨hr, hc⟩ : r < rows ∧ c < cols := hp
  obtain ⟨hr', hc'⟩ : r' < rows ∧ c' < cols := hq
  -- every coupling is listed with the cell of its first vertex
  have hcell : (r * cols + c, r' * cols + c') ∈ gridEdges rows cols ↔
      (r * cols + c, r' * cols + c') ∈ cellEdges rows cols r c := by
    obtain ⟨hdiv, hmod⟩ := cell_div_mod r hc
    unfold gridEdges
    rw [List.mem_flatMap]
    constructor
    · rintro ⟨w, _, hw⟩
      have hsplit : w / cols * cols + w % cols = w := by
        rw [Nat.mul_comm]
        exact Nat.div_add_mod w cols
      have hfirst : w = r * cols + c := by
        simp only [cellEdges, List.mem_append, List.mem_ite_nil_right, List.mem_singleton,
          Prod.mk.injEq, hsplit] at hw
        rcases hw with hw | hw <;> exact hw.2.1.symm
      rwa [hfirst, hdiv, hmod] at hw
    · intro h
      exact ⟨r * cols + c, List.mem_range.mpr (cell_lt hr hc), by rwa [hdiv, hmod]⟩
  have hdown : r * cols + c + cols = (r + 1) * cols + c := by
    rw [Nat.add_one_mul]
    omega
  rw [hcell]
  simp only [cellEdges, List.mem_append, List.mem_ite_nil_right, List.mem_singleton, Prod.mk.injEq,
    true_and, hdown, Nat.add_assoc (r * cols) c 1]
  refine or_congr ?_ ?_
  · constructor
    · rintro ⟨hlt, h⟩
      exact (cell_inj hc' hlt).mp h
    · rintro ⟨rfl, rfl⟩
      exact ⟨hc', rfl⟩
  · constructor
    · rintro ⟨_, h⟩
      exact (cell_inj hc' hc).mp h
    · rintro ⟨rfl, rfl⟩
      exact ⟨hr', rfl⟩

/-- **Vertices of a grid are coupled** if they are one step apart. -/
theorem couples_gridEdges_iff {p q : ℕ × ℕ} (hp : p.1 < rows ∧ p.2 < cols)
    (hq : q.1 < rows ∧ q.2 < cols) :
    Couples (gridEdges rows cols) (p.1 * cols + p.2) (q.1 * cols + q.2) ↔ manhattan p q = 1 := by
  unfold Couples manhattan Nat.dist
  rw [mem_gridEdges_iff hp hq, mem_gridEdges_iff hq hp]
  omega

/-- Where the snake puts a qubit. -/
theorem getElem?_snakeLabelling {q : ℕ} (hq : q < rows * cols) :
    (snakeLabelling rows cols)[q]? =
      some ((gridPosition cols q).1 * cols + (gridPosition cols q).2) := by
  rw [snakeLabelling, List.getElem?_map, List.getElem?_range hq]
  rfl

variable {a b : ℕ}

/-- **Qubits of a grid are coupled** if their positions are one step apart. -/
theorem hasEdge_grid_iff (ha : a < rows * cols) (hb : b < rows * cols) :
    (grid rows cols).hasEdge a b = true ↔
      manhattan (gridPosition cols a) (gridPosition cols b) = 1 := by
  rw [← couples_gridEdges_iff (gridPosition_lt ha) (gridPosition_lt hb), grid, hasEdge_assemble,
    getElem?_snakeLabelling ha, getElem?_snakeLabelling hb]
  simp

/-- A walk takes at least as many steps as its ends are apart. -/
theorem manhattan_le_length (p : (grid rows cols).toSimpleGraph.Walk a b) :
    manhattan (gridPosition cols a) (gridPosition cols b) ≤ p.length := by
  induction p with
  | nil => simp [manhattan_self]
  | @cons a c b hadj p ih =>
    obtain ⟨ha, hc⟩ := lt_of_hasEdge hadj
    have hstep := (hasEdge_grid_iff ha hc).mp hadj
    have htriangle := manhattan_triangle (gridPosition cols a) (gridPosition cols c)
      (gridPosition cols b)
    rw [SimpleGraph.Walk.length_cons]
    omega

/-- Some walk takes no more steps than its ends are apart. -/
theorem exists_walk_length_eq_manhattan (hb : b < rows * cols) (k : ℕ) : ∀ a, a < rows * cols →
    manhattan (gridPosition cols a) (gridPosition cols b) = k →
    ∃ p : (grid rows cols).toSimpleGraph.Walk a b, p.length = k := by
  induction k with
  | zero =>
    intro a _ h
    obtain rfl := gridPosition_inj (cols_pos_of_lt hb) (eq_of_manhattan_eq_zero h)
    exact ⟨.nil, rfl⟩
  | succ k ih =>
    intro a ha h
    -- the next position towards `b` is that of a qubit
    obtain ⟨p', hstep, hrest, hrow, hcol⟩ := exists_manhattan_step h
    obtain ⟨har, hac⟩ := gridPosition_lt ha
    obtain ⟨hbr, hbc⟩ := gridPosition_lt hb
    have hp' : p'.1 < rows ∧ p'.2 < cols :=
      ⟨lt_of_le_of_lt hrow (max_lt har hbr), lt_of_le_of_lt hcol (max_lt hac hbc)⟩
    obtain ⟨c, hc, rfl⟩ := exists_gridPosition_eq hp'
    obtain ⟨p, hp⟩ := ih c hc hrest
    have hadj : (grid rows cols).toSimpleGraph.Adj a c := (hasEdge_grid_iff ha hc).mpr hstep
    exact ⟨.cons hadj p, by rw [SimpleGraph.Walk.length_cons, hp]⟩

/-- **Distances in a grid** are Manhattan distances. -/
theorem dist_grid (ha : a < rows * cols) (hb : b < rows * cols) :
    (grid rows cols).toSimpleGraph.dist a b =
      manhattan (gridPosition cols a) (gridPosition cols b) := by
  obtain ⟨p, hp⟩ := exists_walk_length_eq_manhattan hb _ a ha rfl
  obtain ⟨p₀, hp₀⟩ := p.reachable.exists_walk_length_eq_dist
  refine le_antisymm ?_ ?_
  · rw [← hp]
    exact SimpleGraph.dist_le p
  · rw [← hp₀]
    exact manhattan_le_length p₀

end CouplingGraph

end Grid

namespace CouplingGraph

variable {G : CouplingGraph}

/-! ## Consecutive qubits -/

/-- **Standard graphs**: lines, rings, grids and complete graphs of any size. -/
inductive Standard : CouplingGraph → Prop
  | line (n : ℕ) : Standard (line n)
  | ring (n : ℕ) : Standard (ring n)
  | grid (rows cols : ℕ) : Standard (grid rows cols)
  | complete (n : ℕ) : Standard (complete n)

/-- Neighbours on a line. -/
theorem mem_lineEdges {n q : ℕ} (hq : q + 1 < n) : (q, q + 1) ∈ lineEdges n :=
  List.mem_map.mpr ⟨q, List.mem_range.mpr (by omega), rfl⟩

/-- Neighbours on a ring. -/
theorem mem_ringEdges {n q : ℕ} (hq : q + 1 < n) : (q, q + 1) ∈ ringEdges n := by
  unfold ringEdges
  split
  · exact List.mem_append_left _ (mem_lineEdges hq)
  · exact mem_lineEdges hq

/-- **Consecutive qubits of a standard graph are coupled.** -/
theorem Standard.hasEdge_succ (h : Standard G) {q : ℕ} (hq : q + 1 < G.size) :
    G.hasEdge q (q + 1) = true := by
  cases h with
  | line n =>
    exact hasEdge_assemble_range.mpr ⟨Nat.lt_of_succ_lt hq, hq, .inl (mem_lineEdges hq)⟩
  | ring n =>
    exact hasEdge_assemble_range.mpr ⟨Nat.lt_of_succ_lt hq, hq, .inl (mem_ringEdges hq)⟩
  | grid rows cols =>
    have hq : q + 1 < rows * cols := hq
    exact (hasEdge_grid_iff (Nat.lt_of_succ_lt hq) hq).mpr
      (manhattan_gridPosition_succ (cols_pos_of_lt hq))
  | complete n =>
    exact hasEdge_complete (Nat.lt_of_succ_lt hq) hq (Nat.ne_of_lt (Nat.lt_succ_self q))

/-- Where consecutive qubits are coupled, the qubits from any number on are connected. -/
theorem connectedOn_from_of_hasEdge_succ
    (h : ∀ q, q + 1 < G.size → G.hasEdge q (q + 1) = true) (p : ℕ) :
    G.ConnectedOn {q | p ≤ q ∧ q < G.size} := by
  rcases Nat.lt_or_ge p G.size with hp | hp
  · refine connectedOn_of_hub (S := {q | p ≤ q ∧ q < G.size}) ⟨le_rfl, hp⟩ ?_
    rintro q ⟨hpq, hq⟩
    -- from `p` upwards, one coupling at a time
    induction q, hpq using Nat.le_induction with
    | base => exact .refl
    | succ q hpq ih => exact (ih (Nat.lt_of_succ_lt hq)).tail ⟨⟨Nat.le_succ_of_le hpq, hq⟩, h q hq⟩
  · refine connectedOn_iff.mpr ?_
    rintro a ⟨hpa, ha⟩
    omega

/-- In a standard graph the qubits from any one on are connected. -/
theorem Standard.connectedOn_from (h : Standard G) (p : ℕ) :
    G.ConnectedOn {q | p ≤ q ∧ q < G.size} :=
  connectedOn_from_of_hasEdge_succ (fun _ hq => h.hasEdge_succ hq) p

/-- **Standard graphs are connected.** -/
theorem Standard.isConnected (h : Standard G) : G.isConnected = true := by
  rw [isConnected_iff]
  simpa using h.connectedOn_from 0

end CouplingGraph

end CnotSynthesis
