import CnotSynthesis.Error.Synthesis
import CnotSynthesis.Graph.Coupling

/-! # Lines, rings, grids and complete graphs

* **`line n`**, **`ring n`**, **`complete n`** — qubit `q` sits on vertex `q`.
* **`grid rows cols`** — vertices are numbered row by row; qubits run along the rows, alternately to
  the right and to the left (`snake`), so that consecutive qubits are always coupled.
* **`line?`**, **`ring?`**, **`complete?`**, **`grid?`** — refuse sizes that cannot be held.
* **`graphFor G? n`** — the graph to work on when perhaps none was given. -/

namespace CnotSynthesis

namespace CouplingGraph

/-- The couplings `0 - 1 - … - (n - 1)`. -/
def lineEdges (n : Nat) : List (Nat × Nat) := (List.range (n - 1)).map fun q => (q, q + 1)

/-- The couplings of a line. -/
theorem lineEdges_coupling (n : Nat) : ∀ e ∈ lineEdges n, IsCoupling n e := by
  intro e he
  obtain ⟨q, hq, rfl⟩ := List.mem_map.mp he
  have := List.mem_range.mp hq
  simp only [IsCoupling]
  omega

/-- A line of `n` qubits. -/
def line (n : Nat) : CouplingGraph :=
  assemble s!"line_{n}" n (List.range n) (lineEdges n) (isPermutation_range n)
    (lineEdges_coupling n)

/-- The couplings of a line, closed to a ring from three qubits on. -/
def ringEdges (n : Nat) : List (Nat × Nat) :=
  if 3 ≤ n then lineEdges n ++ [(0, n - 1)] else lineEdges n

/-- The couplings of a ring. -/
theorem ringEdges_coupling (n : Nat) : ∀ e ∈ ringEdges n, IsCoupling n e := by
  intro e he
  unfold ringEdges at he
  split at he
  · rcases List.mem_append.mp he with he | he
    · exact lineEdges_coupling n e he
    · rw [List.mem_singleton.mp he]
      simp only [IsCoupling]
      omega
  · exact lineEdges_coupling n e he

/-- A ring of `n` qubits. -/
def ring (n : Nat) : CouplingGraph :=
  assemble s!"ring_{n}" n (List.range n) (ringEdges n) (isPermutation_range n)
    (ringEdges_coupling n)

/-- Every pair of `n` qubits. -/
def allPairs (n : Nat) : List (Nat × Nat) :=
  (List.range n).flatMap fun a => (List.range' (a + 1) (n - (a + 1))).map (a, ·)

/-- The couplings of a complete graph. -/
theorem allPairs_coupling (n : Nat) : ∀ e ∈ allPairs n, IsCoupling n e := by
  intro e he
  obtain ⟨a, ha, he⟩ := List.mem_flatMap.mp he
  obtain ⟨b, hb, rfl⟩ := List.mem_map.mp he
  have h₁ := List.mem_range.mp ha
  obtain ⟨i, hi, rfl⟩ := List.mem_range'.mp hb
  simp only [IsCoupling]
  omega

/-- Every pair of `n` qubits coupled. -/
def complete (n : Nat) : CouplingGraph :=
  assemble s!"fully_connected_{n}" n (List.range n) (allPairs n) (isPermutation_range n)
    (allPairs_coupling n)

/-! ## Grids -/

/-- The vertex of qubit `q` in a grid of `cols` columns: row `q / cols`, its columns counted from
the left in even rows and from the right in odd ones. -/
def snake (cols q : Nat) : Nat :=
  q / cols * cols + if q / cols % 2 = 0 then q % cols else cols - 1 - q % cols

/-- A qubit and its vertex are in the same row. -/
theorem snake_div {cols : Nat} (h : 0 < cols) (q : Nat) : snake cols q / cols = q / cols := by
  have hm := Nat.mod_lt q h
  unfold snake
  rw [Nat.mul_comm, Nat.mul_add_div h]
  have : (if q / cols % 2 = 0 then q % cols else cols - 1 - q % cols) / cols = 0 := by
    apply Nat.div_eq_of_lt
    split <;> omega
  omega

/-- The snake runs through every other row backwards. -/
theorem snake_mod {cols : Nat} (h : 0 < cols) (q : Nat) :
    snake cols q % cols = if q / cols % 2 = 0 then q % cols else cols - 1 - q % cols := by
  have hm := Nat.mod_lt q h
  unfold snake
  rw [Nat.mul_comm, Nat.mul_add_mod]
  apply Nat.mod_eq_of_lt
  split <;> omega

/-- The snake is its own inverse. -/
theorem snake_snake {cols : Nat} (h : 0 < cols) (q : Nat) : snake cols (snake cols q) = q := by
  have hm := Nat.mod_lt q h
  have hq := Nat.div_add_mod q cols
  have hs : snake cols (snake cols q) = snake cols q / cols * cols +
      if snake cols q / cols % 2 = 0 then snake cols q % cols
      else cols - 1 - snake cols q % cols := rfl
  rw [hs, snake_div h, snake_mod h, Nat.mul_comm]
  split <;> omega

/-- The vertices along the snake. -/
def snakeLabelling (rows cols : Nat) : List Nat := (List.range (rows * cols)).map (snake cols)

/-- The snake visits every cell once. -/
theorem snakeLabelling_perm (rows cols : Nat) :
    IsPermutation (snakeLabelling rows cols) (rows * cols) := by
  rcases Nat.eq_zero_or_pos cols with rfl | h
  · simpa [snakeLabelling] using isPermutation_range 0
  refine ⟨by simp [snakeLabelling], ?_, ?_⟩
  · intro p hp
    obtain ⟨q, hq, rfl⟩ := List.mem_map.mp hp
    have hq := List.mem_range.mp hq
    apply (Nat.div_lt_iff_lt_mul h).mp
    rw [snake_div h]
    exact (Nat.div_lt_iff_lt_mul h).mpr hq
  · unfold snakeLabelling List.Nodup
    rw [List.pairwise_map]
    refine List.Pairwise.imp ?_ (List.nodup_range (n := rows * cols))
    intro a b hab heq
    exact hab (by rw [← snake_snake h a, heq, snake_snake h b])

/-- The couplings of vertex `(r, c)` to the right and downwards. -/
def cellEdges (rows cols r c : Nat) : List (Nat × Nat) :=
  let v := r * cols + c
  (if c + 1 < cols then [(v, v + 1)] else []) ++ (if r + 1 < rows then [(v, v + cols)] else [])

/-- The couplings of a grid, vertex by vertex. -/
def gridEdges (rows cols : Nat) : List (Nat × Nat) :=
  (List.range (rows * cols)).flatMap fun v => cellEdges rows cols (v / cols) (v % cols)

/-- The couplings of a grid. -/
theorem gridEdges_coupling (rows cols : Nat) :
    ∀ e ∈ gridEdges rows cols, IsCoupling (rows * cols) e := by
  intro e he
  obtain ⟨v, hv, he⟩ := List.mem_flatMap.mp he
  have hv := List.mem_range.mp hv
  have hcols : 0 < cols := by
    rcases Nat.eq_zero_or_pos cols with rfl | h
    · simp at hv
    · exact h
  have hr : v / cols < rows := (Nat.div_lt_iff_lt_mul hcols).mpr hv
  have hc : v % cols < cols := Nat.mod_lt v hcols
  generalize v / cols = r at hr he
  generalize v % cols = c at hc he
  -- the cells of row `r` end before the cells of row `r + 1` begin
  have hrow : (r + 1) * cols ≤ rows * cols := Nat.mul_le_mul_right cols hr
  have hsplit : (r + 1) * cols = r * cols + cols := Nat.succ_mul r cols
  rcases List.mem_append.mp he with he | he
  · split at he
    · rw [List.mem_singleton.mp he]
      simp only [IsCoupling]
      omega
    · cases he
  · split at he
    · next hlt =>
      have hnext : (r + 2) * cols ≤ rows * cols := Nat.mul_le_mul_right cols hlt
      have hsplit₂ : (r + 2) * cols = (r + 1) * cols + cols := Nat.succ_mul (r + 1) cols
      rw [List.mem_singleton.mp he]
      simp only [IsCoupling]
      omega
    · cases he

/-- A grid of qubits, labelled along the snake. -/
def grid (rows cols : Nat) : CouplingGraph :=
  assemble s!"grid_{rows}x{cols}" (rows * cols) (snakeLabelling rows cols) (gridEdges rows cols)
    (snakeLabelling_perm rows cols) (gridEdges_coupling rows cols)

/-! ## Sizes that can be held -/

/-- A line of `n` qubits. -/
def line? (n : Nat) : Except Breach CouplingGraph := (requireRoom n).map fun _ => line n

/-- A ring of `n` qubits. -/
def ring? (n : Nat) : Except Breach CouplingGraph := (requireRoom n).map fun _ => ring n

/-- Every pair of `n` qubits coupled. -/
def complete? (n : Nat) : Except Breach CouplingGraph := (requireRoom n).map fun _ => complete n

/-- A grid of qubits, labelled along the snake. -/
def grid? (rows cols : Nat) : Except Breach CouplingGraph :=
  (requireRoom (rows * cols)).map fun _ => grid rows cols

end CouplingGraph

/-! ## The graph of a synthesis -/

/-- The given coupling graph, which must have `n` qubits; without one, any pair may share a gate. -/
def graphFor (G? : Option CouplingGraph) (n : Nat) : Except SynthesisError CouplingGraph :=
  match G? with
  | none => .ok (CouplingGraph.complete n)
  | some G => if G.size = n then .ok G else .error (.sizeMismatch n G.size)

end CnotSynthesis
