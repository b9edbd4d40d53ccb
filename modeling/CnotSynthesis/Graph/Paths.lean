import CnotSynthesis.Graph.Coupling

/-! # Shortest paths and cut vertices

* **`G.distance a b`**, **`G.shortestPath a b`** — read off the walk from `a` through the whole
  graph: the number of steps to `b`, and the way along which `b` was found.
* **`G.shortestPathThrough a b usable`** — read off the walk from `a` through the usable qubits that
  stops at `b`.
* **`G.removable subset`** — the qubits of the subset without which the rest stays connected.

The forms with a question mark refuse qubits outside the graph. -/

namespace CnotSynthesis.CouplingGraph

/-- The qubits of the graph among the given ones. -/
def allows (G : CouplingGraph) (usable : List Nat) (q : Nat) : Bool :=
  q < G.size && usable.contains q

/-- The neighbours of a qubit among the usable ones. -/
def neighborsWithin (G : CouplingGraph) (usable : List Nat) (q : Nat) : List Nat :=
  (G.neighbors q).filter (G.allows usable)

/-- The vertices of a branch that starts at `a`. -/
def pathAlong (a : Nat) (branch : List (Nat × Nat)) : List Nat := a :: branch.map (·.2)

/-- The walk from `a` through the whole graph. -/
def surroundings (G : CouplingGraph) (a : Nat) : Exploration :=
  (explore G.neighbors (fun _ => false) G.size [a]).1

/-- A shortest path from `a` to `b`, both included. -/
def shortestPath (G : CouplingGraph) (a b : Nat) : Option (List Nat) :=
  let e := G.surroundings a
  if e.seen.contains b then some (pathAlong a (e.branch b)) else none

/-- The number of couplings between `a` and `b`, as counted on the walk from `a`. -/
def distance (G : CouplingGraph) (a b : Nat) : Option Nat := (G.surroundings a).stepsTo b

/-- A shortest path from `a` to `b` through usable qubits only. -/
def shortestPathThrough (G : CouplingGraph) (a b : Nat) (usable : List Nat) : Option (List Nat) :=
  if G.allows usable a && G.allows usable b then
    match explore (G.neighborsWithin usable) (· == b) G.size [a] with
    | (e, some _) => some (pathAlong a (e.branch b))
    | (_, none) => none
  else none

/-- Whether the members other than `q` are connected to each other. -/
def staysConnected (G : CouplingGraph) (members : List Nat) (q : Nat) : Bool :=
  match members.filter (· != q) with
  | [] => true
  | first :: others =>
    (reach (G.neighborsWithin (first :: others)) G.size first).length == others.length + 1

/-- The qubits of the subset whose removal leaves the rest of it connected, ascending. -/
def removable (G : CouplingGraph) (subset : List Nat) : List Nat :=
  let members := (List.range G.size).filter subset.contains
  members.filter (G.staysConnected members)

/-! ## Questions about any two numbers -/

/-- The vertex of a qubit of the graph. -/
def vertexOf? (G : CouplingGraph) (q : Nat) : Except Breach Nat :=
  if q < G.size then .ok (G.vertexOf q) else .error .position

/-- The qubit on a vertex of the graph. -/
def qubitAt? (G : CouplingGraph) (v : Nat) : Except Breach Nat :=
  if v < G.size then .ok (G.qubits.getD v 0) else .error .position

/-- The neighbours of a qubit of the graph. -/
def neighbors? (G : CouplingGraph) (q : Nat) : Except Breach (List Nat) :=
  if q < G.size then .ok (G.neighbors q) else .error .position

/-- The distance of two qubits of the graph. -/
def distance? (G : CouplingGraph) (a b : Nat) : Except Breach (Option Nat) :=
  if a < G.size ∧ b < G.size then .ok (G.distance a b) else .error .position

/-- A shortest path between two qubits of the graph. -/
def shortestPath? (G : CouplingGraph) (a b : Nat) : Except Breach (Option (List Nat)) :=
  if a < G.size ∧ b < G.size then .ok (G.shortestPath a b) else .error .position

/-- A shortest path through usable qubits; the second end is looked at only when the first one is
usable. -/
def shortestPathThrough? (G : CouplingGraph) (a b : Nat) (usable : List Nat) :
    Except Breach (Option (List Nat)) :=
  if G.size ≤ a then .error .position
  else if G.allows usable a ∧ G.size ≤ b then .error .position
  else .ok (G.shortestPathThrough a b usable)

/-- The removable ones of a subset of the qubits of the graph. -/
def removable? (G : CouplingGraph) (subset : List Nat) : Except Breach (List Nat) :=
  if subset.all (· < G.size) then .ok (G.removable subset) else .error .position

end CnotSynthesis.CouplingGraph
