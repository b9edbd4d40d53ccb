import CnotSynthesis.Error.Synthesis
import CnotSynthesis.Graph.Coupling
import CnotSynthesis.Json.Value

/-! # Coupling graphs from coupling lists

* **`CouplingGraph.ofLabelled`** — a graph from a size, couplings between vertices and a labelling;
  the labelling is checked first, then the couplings in order, then that the graph is connected.
* **`CouplingGraph.ofCouplings`** — the same, qubit `q` on vertex `q`.
* **`CouplingSpec`** — the same as a document, `G.toSpec` the document of a graph. -/

namespace CnotSynthesis

namespace CouplingGraph

/-- What is wrong with a coupling, if anything. -/
def edgeFault? (size : Nat) (e : Nat × Nat) : Option ConfigCause :=
  if size ≤ e.1 ∨ size ≤ e.2 then some (.edgeOutOfRange e.1 e.2 size)
  else if e.1 = e.2 then some (.selfCoupling e.1)
  else none

/-- A pair without a fault is a coupling. -/
theorem isCoupling_of_edgeFault? {size : Nat} {e : Nat × Nat} (h : edgeFault? size e = none) :
    IsCoupling size e := by
  unfold edgeFault? at h
  split at h
  · cases h
  · split at h
    · cases h
    · simp only [IsCoupling]
      omega

/-- The graph with the given couplings, for a labelling that is one. -/
def ofPlaced (name : String) (size : Nat) (edges : List (Nat × Nat)) (labelling : List Nat)
    (labelling_perm : IsPermutation labelling size) : Except SynthesisError CouplingGraph :=
  match he : edges.findSome? (edgeFault? size) with
  | some cause => .error (.invalidConfiguration cause)
  | none =>
    let G := assemble name size labelling edges labelling_perm fun e hmem =>
      isCoupling_of_edgeFault? (List.findSome?_eq_none_iff.mp he e hmem)
    if G.isConnected then .ok G else .error (.disconnected name)

/-- The graph with the given couplings, qubit `q` on vertex `labelling[q]`. -/
def ofLabelled (name : String) (size : Nat) (edges : List (Nat × Nat)) (labelling : List Nat) :
    Except SynthesisError CouplingGraph :=
  if hl : IsPermutation labelling size then ofPlaced name size edges labelling hl
  else .error (.algebra (Permutation.fault labelling size))

/-- The graph with the given couplings, qubit `q` on vertex `q`. -/
def ofCouplings (name : String) (size : Nat) (edges : List (Nat × Nat)) :
    Except (Fault SynthesisError) CouplingGraph := do
  (requireRoom size).mapError .broken
  (ofPlaced name size edges (List.range size) (isPermutation_range size)).mapError .refused

/-- The graph with the given couplings and no name of its own. -/
def ofEdges (size : Nat) (edges : List (Nat × Nat)) : Except (Fault SynthesisError) CouplingGraph :=
  ofCouplings "custom" size edges

end CouplingGraph

/-- A coupling graph as a document. -/
structure CouplingSpec where
  name : String
  size : Nat
  /-- Couplings between vertices. -/
  edges : List (Nat × Nat)
  /-- The vertex of each qubit, when it is not the qubit's own number. -/
  labelling : Option (List Nat)
deriving DecidableEq, Repr

namespace CouplingSpec

/-- The graph of a document. -/
def toGraph (s : CouplingSpec) : Except (Fault SynthesisError) CouplingGraph :=
  match s.labelling with
  | none => CouplingGraph.ofCouplings s.name s.size s.edges
  | some labelling =>
    (CouplingGraph.ofLabelled s.name s.size s.edges labelling).mapError .refused

/-- A pair of vertices as an array. -/
def edgeToJson (e : Nat × Nat) : Json := .array [.ofNat e.1, .ofNat e.2]

/-- The document as an object; the labelling is left out when there is none. -/
def toJson (s : CouplingSpec) : Json :=
  let labelling :=
    match s.labelling with
    | some l => [("qubit_to_vertex", Json.ofNats l)]
    | none => []
  .object ([("name", .string s.name), ("num_qubits", .ofNat s.size),
    ("edges", .array (s.edges.map edgeToJson))] ++ labelling)

/-- A document from a record; the labelling may be missing. -/
def ofJson? (v : Json) : Option CouplingSpec := do
  let [some name, some size, some edges, labelling] ←
    v.record? ["name", "num_qubits", "edges", "qubit_to_vertex"] | none
  let labelling ←
    match labelling with
    | none => some none
    | some l => l.option? (Json.list? Json.nat?)
  return ⟨← name.text?, ← size.nat?, ← edges.list? (Json.pair? Json.nat? Json.nat?), labelling⟩

end CouplingSpec

/-- The document of a graph. -/
def CouplingGraph.toSpec (G : CouplingGraph) : CouplingSpec :=
  ⟨G.name, G.size, G.edges,
    if G.labelling = List.range G.size then none else some G.labelling⟩

end CnotSynthesis
