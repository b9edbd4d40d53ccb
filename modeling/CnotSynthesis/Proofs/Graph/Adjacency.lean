import CnotSynthesis.Graph.Coupling
import CnotSynthesis.Proofs.Permutation
import CnotSynthesis.Proofs.Sorting

/-! # The table of neighbours

Couplings are listed between vertices and entered, one by one, between the qubits on them. This file
says what the table holds in the end.

* **`getElem?_enterCoupling`**, **`getElem?_foldl_enterCoupling`** — what one coupling adds to the
  list of a qubit, and what all of them add.
* **`CouplingGraph.hasEdge_iff`** — a qubit is found among the neighbours of another exactly if the
  vertices of the two are listed as coupled.
* **`CouplingGraph.mem_neighbors`**, **`CouplingGraph.pairwise_neighbors`** — the list of a qubit
  holds the qubits coupled to it in ascending order, so that
  (**`CouplingGraph.neighbors_eq_filter`**) it is the part of `0..n` that is coupled to it. -/

namespace CnotSynthesis

/-! ## Entering couplings -/

/-- What a coupling of two qubits adds to the list of `q`: the other one. -/
def partners (q : ℕ) (e : ℕ × ℕ) : List ℕ :=
  (if e.1 = q then [e.2] else []) ++ (if e.2 = q then [e.1] else [])

/-- The partner of `q` is the other qubit, whichever is listed first. -/
theorem mem_partners {q p : ℕ} {e : ℕ × ℕ} : p ∈ partners q e ↔ e = (q, p) ∨ e = (p, q) := by
  obtain ⟨a, b⟩ := e
  unfold partners
  simp only [List.mem_append, List.mem_ite_nil_right, List.mem_singleton, Prod.mk.injEq]
  omega

/-- **One coupling** adds to a list what `partners` says, and nothing else. -/
theorem getElem?_enterCoupling (table : List (List ℕ)) (a b q : ℕ) :
    (enterCoupling table a b)[q]? = table[q]?.map (· ++ partners q (a, b)) := by
  unfold enterCoupling partners
  rw [List.getElem?_modify, List.getElem?_modify]
  cases table[q]? with
  | none => rfl
  | some list => by_cases ha : a = q <;> by_cases hb : b = q <;> simp [ha, hb]

/-- **All couplings** add to a list the partners of its qubit, in the order in which they come. -/
theorem getElem?_foldl_enterCoupling (qubit : ℕ → ℕ) (edges : List (ℕ × ℕ)) (q : ℕ) :
    ∀ table : List (List ℕ),
      (edges.foldl (fun table e => enterCoupling table (qubit e.1) (qubit e.2)) table)[q]? =
        table[q]?.map (· ++ edges.flatMap fun e => partners q (qubit e.1, qubit e.2)) := by
  induction edges with
  | nil =>
    intro table
    simp
  | cons e rest ih =>
    intro table
    rw [List.foldl_cons, ih, getElem?_enterCoupling, Option.map_map, List.flatMap_cons]
    congr 1
    funext list
    exact List.append_assoc ..

namespace CouplingGraph

variable {G : CouplingGraph} {a b p q : ℕ}

/-! ## What the table holds -/

/-- The partners of a qubit, in the order in which they are entered. -/
def entered (G : CouplingGraph) (q : ℕ) : List ℕ :=
  G.edges.flatMap fun e => partners q (G.qubits.getD e.1 0, G.qubits.getD e.2 0)

/-- The table has a list for each qubit of the graph, sorted from what was entered. -/
theorem getElem?_neighborTable (G : CouplingGraph) (q : ℕ) :
    G.neighborTable[q]? = if q < G.size then some (sortNumbers (G.entered q)) else none := by
  rw [G.neighborTable_eq, neighborLists, List.getElem?_map,
    getElem?_foldl_enterCoupling fun v => (Permutation.inverse G.labelling).getD v 0,
    List.getElem?_replicate]
  split <;> rfl

/-- A qubit sits on a vertex exactly if the vertex is its own. -/
theorem qubit_eq_iff {v : ℕ} (hv : v < G.size) :
    G.qubits.getD v 0 = q ↔ q < G.size ∧ G.vertexOf q = v := by
  have hperm := G.labelling_perm
  constructor
  · rintro rfl
    exact ⟨hperm.inverse.getD_lt hv, hperm.getD_getD_inverse hv⟩
  · rintro ⟨hq, rfl⟩
    exact hperm.getD_inverse hq

/-- **A coupling makes two qubits partners** exactly if it is listed between their vertices. -/
theorem mem_partners_iff {e : ℕ × ℕ} (he : e ∈ G.edges) :
    p ∈ partners q (G.qubits.getD e.1 0, G.qubits.getD e.2 0) ↔
      q < G.size ∧ p < G.size ∧ e = orient (G.vertexOf q, G.vertexOf p) := by
  obtain ⟨u, v⟩ := e
  obtain ⟨hu, hv, _⟩ := G.edges_coupling _ he
  have hle : u ≤ v := G.edges_oriented _ he
  simp only [mem_partners, Prod.mk.injEq, qubit_eq_iff hu, qubit_eq_iff hv, orient]
  constructor
  · rintro (⟨⟨hq, rfl⟩, hp, rfl⟩ | ⟨⟨hp, rfl⟩, hq, rfl⟩)
    · exact ⟨hq, hp, (min_eq_left hle).symm, (max_eq_right hle).symm⟩
    · exact ⟨hq, hp, (min_eq_right hle).symm, (max_eq_left hle).symm⟩
  · rintro ⟨hq, hp, rfl, rfl⟩
    rcases le_total (G.vertexOf q) (G.vertexOf p) with h | h
    · exact .inl ⟨⟨hq, (min_eq_left h).symm⟩, hp, (max_eq_right h).symm⟩
    · exact .inr ⟨⟨hp, (min_eq_right h).symm⟩, hq, (max_eq_left h).symm⟩

/-- **The partners of a qubit** sit on the vertices that are coupled to its own. -/
theorem mem_entered : p ∈ G.entered q ↔
    q < G.size ∧ p < G.size ∧ orient (G.vertexOf q, G.vertexOf p) ∈ G.edges := by
  unfold entered
  rw [List.mem_flatMap]
  constructor
  · rintro ⟨e, he, hmem⟩
    obtain ⟨hq, hp, rfl⟩ := (mem_partners_iff he).mp hmem
    exact ⟨hq, hp, he⟩
  · rintro ⟨hq, hp, he⟩
    exact ⟨_, he, (mem_partners_iff he).mpr ⟨hq, hp, rfl⟩⟩

/-- **No partner is entered twice**: a coupling is listed once, in one direction, and its vertices
differ. -/
theorem nodup_entered (G : CouplingGraph) (q : ℕ) : (G.entered q).Nodup := by
  unfold entered
  rw [List.nodup_flatMap]
  constructor
  · intro e he
    obtain ⟨hu, hv, hne⟩ := G.edges_coupling e he
    have hdistinct : ¬ (G.qubits.getD e.1 0 = q ∧ G.qubits.getD e.2 0 = q) := by
      rw [qubit_eq_iff hu, qubit_eq_iff hv]
      exact fun h => hne (h.1.2.symm.trans h.2.2)
    unfold partners
    split <;> split <;> simp_all
  · refine (orders_pairBefore.nodup G.edges_ascending).pairwise_of_forall_ne ?_
    intro e he e' he' hne p hp hp'
    obtain ⟨_, _, heq⟩ := (mem_partners_iff he).mp hp
    obtain ⟨_, _, heq'⟩ := (mem_partners_iff he').mp hp'
    exact hne (heq.trans heq'.symm)

/-! ## What the table says -/

/-- The neighbours of a qubit are its partners, rearranged. -/
theorem perm_neighbors (hq : q < G.size) : (G.neighbors q).Perm (G.entered q) := by
  unfold neighbors
  rw [List.getD_eq_getElem?_getD, getElem?_neighborTable, if_pos hq, Option.getD_some]
  exact perm_sortNumbers _

/-- There are no neighbours outside the graph. -/
theorem neighbors_of_le (hq : G.size ≤ q) : G.neighbors q = [] := by
  unfold neighbors
  rw [List.getD_eq_getElem?_getD, getElem?_neighborTable, if_neg (by omega), Option.getD_none]

/-- **Neighbours come in ascending order.** -/
theorem pairwise_neighbors (G : CouplingGraph) (q : ℕ) : (G.neighbors q).Pairwise (· < ·) := by
  by_cases hq : q < G.size
  · have hle : (G.neighbors q).Pairwise (· ≤ ·) := by
      unfold neighbors
      rw [List.getD_eq_getElem?_getD, getElem?_neighborTable, if_pos hq, Option.getD_some]
      exact pairwise_sortNumbers _
    have hne : (G.neighbors q).Nodup := (perm_neighbors hq).nodup_iff.mpr (G.nodup_entered q)
    exact (hle.and hne).imp fun h => lt_of_le_of_ne h.1 h.2
  · rw [neighbors_of_le (not_lt.mp hq)]
    exact .nil

/-- **The neighbours of `q` are the qubits coupled to it**: the search in its ascending list finds
exactly what is there. -/
theorem mem_neighbors : p ∈ G.neighbors q ↔ G.hasEdge q p = true := by
  have hsorted := (G.pairwise_neighbors q).imp le_of_lt
  unfold hasEdge
  unfold neighbors at hsorted ⊢
  rw [List.getD_eq_getElem?_getD] at hsorted ⊢
  cases hlist : G.neighborTable[q]? with
  | none => simp
  | some list =>
    rw [hlist] at hsorted
    exact (isSome_binarySearch_iff hsorted).symm

/-- **Two qubits are coupled** if a coupling is listed between the vertices they sit on. -/
theorem hasEdge_iff : G.hasEdge a b = true ↔
    a < G.size ∧ b < G.size ∧ orient (G.vertexOf a, G.vertexOf b) ∈ G.edges := by
  rw [← mem_neighbors]
  by_cases ha : a < G.size
  · rw [(perm_neighbors ha).mem_iff, mem_entered]
  · rw [neighbors_of_le (not_lt.mp ha)]
    simp [ha]

/-- **Couplings have no direction.** -/
theorem hasEdge_comm (G : CouplingGraph) (a b : ℕ) : G.hasEdge a b = G.hasEdge b a := by
  rw [Bool.eq_iff_iff, hasEdge_iff, hasEdge_iff, orient_comm, and_left_comm]

/-- Coupled qubits are qubits of the graph. -/
theorem lt_of_hasEdge (h : G.hasEdge a b = true) : a < G.size ∧ b < G.size :=
  ⟨(hasEdge_iff.mp h).1, (hasEdge_iff.mp h).2.1⟩

/-- **The neighbours of `q`** are the numbers below the size that are coupled to it, in order. -/
theorem neighbors_eq_filter (G : CouplingGraph) (q : ℕ) :
    G.neighbors q = (List.range G.size).filter (G.hasEdge q) := by
  have hrange : ((List.range G.size).filter (G.hasEdge q)).Pairwise (· < ·) :=
    List.pairwise_lt_range.filter _
  refine orders_lt.eq_of_mem_iff ((G.pairwise_neighbors q).imp decide_eq_true)
    (hrange.imp decide_eq_true) ?_
  intro p
  rw [mem_neighbors, List.mem_filter, List.mem_range]
  exact ⟨fun h => ⟨(lt_of_hasEdge h).2, h⟩, fun h => h.2⟩

end CouplingGraph

end CnotSynthesis
