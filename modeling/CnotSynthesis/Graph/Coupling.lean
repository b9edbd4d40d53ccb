import CnotSynthesis.Circuit.Basic
import CnotSynthesis.Graph.Exploration
import CnotSynthesis.Sorting

/-! # Coupling graphs

A coupling graph says which qubits may share a gate. Couplings are given between vertices; the
labelling says on which vertex each qubit sits. Qubits are also the row numbers of the matrices
to be reduced, and all questions are asked and answered in qubits.

* **`CouplingGraph`** — name, size, labelling and couplings in normal form. Neighbour lists and the
  order of elimination are kept beside them, tied to them by an equation each.
* **`neighborLists`** — the table of neighbours: every coupling is entered between the qubits on its
  two vertices.
* **`G.neighbors q`** — the qubits coupled to `q`, ascending.
* **`G.hasEdge a b`** — the view: `b` is found among the neighbours of `a`.
* **`G.eliminationOrder`** — the qubits, each before the one through which it was found depth first,
  so every final part of the order is connected.
* **`CouplingGraph.assemble`** — the only constructor used elsewhere; couplings are put into a
  normal form, so their order, direction and repetition do not matter. -/

namespace CnotSynthesis

/-! ## Couplings in normal form -/

/-- A coupling with the smaller vertex first. -/
def orient (e : Nat × Nat) : Nat × Nat := (min e.1 e.2, max e.1 e.2)

/-- Oriented, ascending, without repetition. -/
def normalEdges (edges : List (Nat × Nat)) : List (Nat × Nat) :=
  sortDistinct pairBefore (edges.map orient)

/-- The normal couplings are the oriented ones. -/
theorem mem_normalEdges {a : Nat × Nat} {edges : List (Nat × Nat)} :
    a ∈ normalEdges edges ↔ ∃ e ∈ edges, a = orient e := by
  unfold normalEdges
  rw [mem_sortDistinct, List.mem_map]
  simp only [eq_comm]

/-- Two different vertices below `size`. -/
def IsCoupling (size : Nat) (e : Nat × Nat) : Prop := e.1 < size ∧ e.2 < size ∧ e.1 ≠ e.2

/-- Whether a pair is a coupling can be decided. -/
instance (size : Nat) (e : Nat × Nat) : Decidable (IsCoupling size e) :=
  inferInstanceAs (Decidable (_ ∧ _ ∧ _))

/-! ## What is computed once -/

/-- Whether two vertices are coupled, for couplings in normal form. -/
def areCoupled (edges : List (Nat × Nat)) (u v : Nat) : Bool := edges.contains (orient (u, v))

/-- The vertices coupled to `u`, ascending. -/
def coupledTo (size : Nat) (edges : List (Nat × Nat)) (u : Nat) : List Nat :=
  (List.range size).filter (areCoupled edges u)

/-- Enter a coupling of the qubits `a` and `b`: each joins the list of the other. -/
def enterCoupling (table : List (List Nat)) (a b : Nat) : List (List Nat) :=
  (table.modify a (· ++ [b])).modify b (· ++ [a])

/-- The qubits coupled to each qubit, ascending: the couplings are entered one by one, each between
the qubits on its two vertices, and then every list is sorted. -/
def neighborLists (size : Nat) (labelling : List Nat) (edges : List (Nat × Nat)) :
    List (List Nat) :=
  let qubits := Permutation.inverse labelling
  let table := edges.foldl (fun table e =>
    enterCoupling table (qubits.getD e.1 0) (qubits.getD e.2 0)) (List.replicate size [])
  table.map sortNumbers

/-- The qubits in the order in which a depth-first walk from the vertex of qubit 0 finishes their
vertices, neighbours taken by ascending vertex. -/
def finishOrder (size : Nat) (labelling : List Nat) (edges : List (Nat × Nat)) : List Nat :=
  match labelling with
  | [] => []
  | v :: _ =>
    let qubits := Permutation.inverse labelling
    (postOrder (coupledTo size edges) size v).map fun u => qubits.getD u 0

/-! ## The graph -/

/-- Which of `size` qubits may share a gate. -/
structure CouplingGraph where
  name : String
  size : Nat
  /-- The vertex of each qubit. -/
  labelling : List Nat
  /-- The couplings between vertices, in normal form. -/
  edges : List (Nat × Nat)
  labelling_perm : IsPermutation labelling size
  edges_coupling : ∀ e ∈ edges, IsCoupling size e
  edges_oriented : ∀ e ∈ edges, e.1 ≤ e.2
  edges_ascending : edges.Pairwise (pairBefore · · = true)
  /-- The qubits coupled to each qubit. -/
  neighborTable : List (List Nat)
  neighborTable_eq : neighborTable = neighborLists size labelling edges
  /-- The order in which rows are eliminated. -/
  eliminationOrder : List Nat
  eliminationOrder_eq : eliminationOrder = finishOrder size labelling edges

namespace CouplingGraph

/-- An oriented coupling is a coupling. -/
theorem isCoupling_orient {size : Nat} {e : Nat × Nat} (h : IsCoupling size e) :
    IsCoupling size (orient e) := by
  obtain ⟨a, b⟩ := e
  obtain ⟨h₁, h₂, h₃⟩ := h
  simp only [IsCoupling, orient] at *
  omega

/-- The graph with the given couplings between vertices. -/
def assemble (name : String) (size : Nat) (labelling : List Nat) (edges : List (Nat × Nat))
    (labelling_perm : IsPermutation labelling size)
    (edges_coupling : ∀ e ∈ edges, IsCoupling size e) : CouplingGraph where
  name := name
  size := size
  labelling := labelling
  edges := normalEdges edges
  labelling_perm := labelling_perm
  edges_coupling := by
    intro a ha
    obtain ⟨e, he, rfl⟩ := mem_normalEdges.mp ha
    exact isCoupling_orient (edges_coupling e he)
  edges_oriented := by
    intro a ha
    obtain ⟨e, _, rfl⟩ := mem_normalEdges.mp ha
    exact Nat.le_trans (Nat.min_le_left ..) (Nat.le_max_left ..)
  edges_ascending := pairwise_sortDistinct orders_pairBefore _
  neighborTable := neighborLists size labelling (normalEdges edges)
  neighborTable_eq := rfl
  eliminationOrder := finishOrder size labelling (normalEdges edges)
  eliminationOrder_eq := rfl

/-- The vertex of a qubit. -/
def vertexOf (G : CouplingGraph) (q : Nat) : Nat := G.labelling.getD q 0

/-- The qubit of each vertex. -/
def qubits (G : CouplingGraph) : List Nat := Permutation.inverse G.labelling

/-- Whether two qubits are coupled: the second one is looked up among the neighbours of the
first. -/
def hasEdge (G : CouplingGraph) (a b : Nat) : Bool :=
  G.neighborTable[a]?.any fun list => (binarySearch list b).isSome

/-- The qubits coupled to `q`, ascending; none outside the graph. -/
def neighbors (G : CouplingGraph) (q : Nat) : List Nat := G.neighborTable.getD q []

/-- A pair and its reverse are oriented alike. -/
theorem orient_comm (a b : Nat) : orient (a, b) = orient (b, a) := by
  simp [orient, Nat.min_comm, Nat.max_comm]

/-- The coupled pairs of qubits, smaller qubit first, ascending. -/
def qubitEdges (G : CouplingGraph) : List (Nat × Nat) :=
  (List.range G.size).flatMap fun a => ((G.neighbors a).filter (a < ·)).map (a, ·)

/-- Whether every qubit can be reached from qubit 0. -/
def isConnected (G : CouplingGraph) : Bool :=
  G.size ≤ 1 || (reach G.neighbors G.size 0).length == G.size

/-- Whether every gate acts on a coupled pair. -/
def supports (G : CouplingGraph) (c : Circuit) : Bool :=
  c.qubits == G.size && c.gates.all fun g => G.hasEdge g.control g.target

/-- Whether two graphs have the same name, labelling and couplings. -/
def sameAs (G H : CouplingGraph) : Bool :=
  G.name == H.name && G.labelling == H.labelling && G.neighborTable == H.neighborTable

/-- The graph with every coupling turned around: itself, since couplings have no direction. -/
def transpose (G : CouplingGraph) : CouplingGraph := G

end CouplingGraph

end CnotSynthesis
