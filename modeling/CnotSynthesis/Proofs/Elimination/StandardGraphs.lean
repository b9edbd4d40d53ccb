import CnotSynthesis.Proofs.Elimination.SteinerByRow
import CnotSynthesis.Proofs.Graph.Standard

/-! # Steiner elimination by row number on standard graphs

* **`Reduction.steinerByRow_echelon`** — the passes by row number find as many pivots as the matrix
  they leave in echelon form has.
* **`Method.steiner_byRow_eq_rank`** — where the qubits from any number on are connected, the
  elimination ends with the rank, whatever the matrix.
* **`CouplingGraph.standard_suits_byRow`** — lines, rings, grids and complete graphs are such
  graphs. -/

namespace CnotSynthesis

namespace Reduction

variable {G : CouplingGraph} {w : Work}

/-- **Both passes, or the downward one alone**, leave an echelon form with the pivots they found. -/
theorem steinerByRow_echelon (hG : G.isConnected = true) (full : Bool)
    (hsize : G.size = w.matrix.rows) :
    Yields (¬ G.SuffixConnected) (steiner .byRow full G) w fun k w' =>
      ∃ pivots, w'.matrix.EchelonTo pivots w'.matrix.cols ∧ k = pivots.length := by
  refine yields_matrix_bind ?_
  rw [if_neg (by simp)]
  cases full with
  | true =>
    refine (steinerByRow_yields hG hsize).mono ?_
    rintro k w' ⟨pivots, hreduced, hk⟩
    exact ⟨pivots, hreduced.echelon, hk⟩
  | false =>
    refine yields_matrix_bind ?_
    refine (descend_yields w.matrix.cols 0 [] w hsize w.matrix.echelonTo_zero).bind ?_
    rintro columns w' ⟨_, hcols, hechelon⟩
    rw [List.nil_append, Nat.zero_add, ← hcols] at hechelon
    exact yields_pure ⟨columns, hechelon, rfl⟩

end Reduction

namespace Method

/-- **Elimination by row number always ends with the rank** on a graph whose qubits from any number
on are connected, for every matrix with as many rows. -/
theorem steiner_byRow_eq_rank {G : CouplingGraph} (hG : G.isConnected = true)
    (hsuffix : G.SuffixConnected) {M : ParityMatrix} (hsize : G.size = M.rows) (full : Bool)
    {c? : Option Circuit} (hc : ∀ c ∈ c?, M.rows ≤ c.qubits) :
    ((Method.steiner full .byRow).reduce (some G) M c?).outcome = .ok M.rank := by
  have hyields := Reduction.steinerByRow_echelon hG full (w := Work.start M) hsize
  obtain ⟨k, hk⟩ := hyields.exists_ok (not_not.mpr hsuffix)
  obtain ⟨pivots, hechelon, rfl⟩ := hyields.of_ok hk
  obtain ⟨hcoupled, hmatrix⟩ := (Reduction.proceeds_steiner (G := G) .byRow full).exists_addRows M
  have hproper : ∀ op ∈ rowAdditions ((Reduction.steiner .byRow full G).plan M).work.events,
      op.target ≠ op.source := fun op hop => CouplingGraph.ne_of_hasEdge (hcoupled op hop)
  -- row additions do not change the rank, and an echelon form has as many pivots
  have hrank : pivots.length = M.rank := by
    rw [← hechelon.rank_eq, hmatrix, ParityMatrix.rows_addRows, ParityMatrix.cols_addRows,
      ParityMatrix.rank_toMatrix_addRows hproper, ← M.rank_eq_rank_toMatrix]
  rw [reduce_steiner_eq hsize full .byRow hc, hk, hrank]
  rfl

end Method

namespace CouplingGraph

variable {G : CouplingGraph}

/-- **Every qubit has a vertex of its own**, and every vertex a qubit. -/
theorem bijOn_vertexOf (G : CouplingGraph) :
    Set.BijOn G.vertexOf {q | q < G.size} {v | v < G.size} := by
  refine ⟨fun q hq => G.labelling_perm.getD_lt hq, ?_, ?_⟩
  · exact fun a ha b hb hab => G.labelling_perm.getD_inj ha hb hab
  · exact fun v hv =>
      ⟨_, G.labelling_perm.inverse.getD_lt hv, G.labelling_perm.getD_getD_inverse hv⟩

/-- **Standard graphs suit elimination by row number.** For lines, rings, grids and complete graphs
of every size: qubits and vertices correspond one to one; consecutive qubits are coupled, so those
from any number on induce a connected graph; in a grid, whose qubits follow the snake, two qubits
are coupled exactly if their positions are one step apart, and their distance is the Manhattan
distance; and Steiner elimination by row number ends with the rank, for every matrix with as many
rows. -/
theorem standard_suits_byRow (h : Standard G) :
    Set.BijOn G.vertexOf {q | q < G.size} {v | v < G.size} ∧
    (∀ q, q < G.size → G.qubitAt? (G.vertexOf q) = .ok q) ∧
    (∀ q, q + 1 < G.size → G.hasEdge q (q + 1) = true) ∧
    (∀ p, p < G.size → (G.toSimpleGraph.induce {q | p ≤ q ∧ q < G.size}).Connected) ∧
    (∀ rows cols : ℕ, G = grid rows cols → ∀ a b : ℕ, a < rows * cols → b < rows * cols →
      G.vertexOf a = (gridPosition cols a).1 * cols + (gridPosition cols a).2 ∧
      (G.hasEdge a b = true ↔ manhattan (gridPosition cols a) (gridPosition cols b) = 1) ∧
      G.distance? a b = .ok (some (manhattan (gridPosition cols a) (gridPosition cols b)))) ∧
    ∀ (full : Bool) (M : ParityMatrix) (c? : Option Circuit), M.rows = G.size →
      (∀ c ∈ c?, M.rows ≤ c.qubits) →
      ((Method.steiner full .byRow).reduce (some G) M c?).outcome = .ok M.rank := by
  refine ⟨bijOn_vertexOf G, ?_, fun q hq => h.hasEdge_succ hq, ?_, ?_, ?_⟩
  · intro q hq
    rw [qubitAt?_eq_ok_iff, vertexOf?, if_pos hq]
  · intro p hp
    have : Nonempty {q | p ≤ q ∧ q < G.size} := ⟨p, le_rfl, hp⟩
    exact ⟨h.connectedOn_from p⟩
  · rintro rows cols rfl a b ha hb
    refine ⟨?_, hasEdge_grid_iff ha hb, ?_⟩
    · change (snakeLabelling rows cols).getD a 0 = _
      rw [List.getD_eq_getElem?_getD, getElem?_snakeLabelling ha, Option.getD_some]
    · rw [distance?, if_pos ⟨ha, hb⟩, distance_eq_dist h.isConnected ha hb, dist_grid ha hb]
  · exact fun full M c? hM hc =>
      Method.steiner_byRow_eq_rank h.isConnected h.connectedOn_from hM.symm full hc

/-- A grid of three rows and two columns: the snake turns at qubits 1 and 3, so qubit 1 is coupled
to qubit 2 below it, and it takes three steps from qubit 0 to the last one. A matrix with more
columns than rows is reduced. -/
theorem standard_suits_byRow_grid :
    Standard (grid 3 2) ∧ (grid 3 2).hasEdge 1 2 = true ∧ (grid 3 2).hasEdge 0 2 = false ∧
      (grid 3 2).distance? 0 5 = .ok (some 3) ∧
      ((Method.steiner true .byRow).reduce (some (grid 3 2))
        (ParityMatrix.ofFn 6 7 fun r c => c == 0 || c == r + 1) none).outcome = .ok 6 := by
  obtain ⟨_, _, hsucc, _, hgrid, hreduce⟩ := standard_suits_byRow (.grid 3 2)
  have hfar := (hgrid 3 2 rfl 0 2 (by decide) (by decide)).2.1
  have hrank : (ParityMatrix.ofFn 6 7 fun r c => c == 0 || c == r + 1).rank = 6 := by decide
  refine ⟨.grid 3 2, hsucc 1 (by decide), ?_, ?_, ?_⟩
  · exact Bool.eq_false_iff.mpr fun hedge => absurd (hfar.mp hedge) (by decide)
  · exact (hgrid 3 2 rfl 0 5 (by decide) (by decide)).2.2
  · rw [hreduce true _ none rfl (by simp), hrank]

end CouplingGraph

end CnotSynthesis
