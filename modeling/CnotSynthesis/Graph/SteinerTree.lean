import CnotSynthesis.Error.Synthesis
import CnotSynthesis.Graph.Paths

/-! # Steiner trees

A Steiner tree joins a root to a list of terminals through usable qubits. Terminals are attached one
after the other, each time the first one that a breadth-first walk from the tree built so far meets.

* **`SteinerTree`** — a root and edges `(parent, child)`, parents before children.
* **`SteinerTree.prune keep`** — the part between the root and the nodes that satisfy `keep`.
* **`G.steinerTree root terminals usable`** — the tree, or the reason why there is none. -/

namespace CnotSynthesis

/-- A rooted tree, its edges `(parent, child)` listed with every parent before its children. -/
structure SteinerTree where
  root : Nat
  edges : List (Nat × Nat)
deriving DecidableEq, Repr

namespace SteinerTree

/-- The edges with every child before its parent. -/
def postorder (t : SteinerTree) : List (Nat × Nat) := t.edges.reverse

/-- The root and every child. -/
def nodes (t : SteinerTree) : List Nat := t.root :: t.edges.map (·.2)

/-- Whether the qubit is a node. -/
def contains (t : SteinerTree) (q : Nat) : Bool := t.nodes.contains q

/-- The nodes marked when the edges are taken in the given order: both ends of an edge whose child
satisfies `keep` or is marked already. -/
def mark (keep : Nat → Bool) : List (Nat × Nat) → List Nat → List Nat
  | [], marked => marked
  | (p, c) :: rest, marked =>
    if keep c || marked.contains c then mark keep rest (c :: p :: marked) else mark keep rest marked

/-- The edges on the way from the root to a node that satisfies `keep`. -/
def prune (t : SteinerTree) (keep : Nat → Bool) : SteinerTree :=
  let marked := mark keep t.postorder []
  { t with edges := t.edges.filter fun (_, c) => marked.contains c }

end SteinerTree

namespace CouplingGraph

/-- The walk from all nodes of the tree to the first terminal that is not a node: the branch to it,
if it can be reached. -/
def nearestBranch (G : CouplingGraph) (usable : List Nat) (t : SteinerTree)
    (pending : List Nat) : Option (List (Nat × Nat)) :=
  match explore (G.neighborsWithin usable) pending.contains G.size
      ((List.range G.size).filter t.contains) with
  | (e, some terminal) => some (e.branch terminal)
  | (_, none) => none

/-- Attach the terminals that are not nodes yet, at most `fuel` of them. -/
def attach (G : CouplingGraph) (usable terminals : List Nat) :
    Nat → SteinerTree → Except StructuralCause SteinerTree
  | 0, t => .ok t
  | fuel + 1, t =>
    let pending := terminals.filter fun q => !t.contains q
    if pending.isEmpty then .ok t
    else
      match G.nearestBranch usable t pending with
      | some branch => attach G usable terminals fuel { t with edges := t.edges ++ branch }
      | none => .error (.unreachable ((List.range G.size).filter pending.contains) t.root)

/-- The tree that joins `root` to `terminals` through the qubits `usable` and `extra`. -/
def steinerTreeWith (G : CouplingGraph) (root : Nat) (terminals usable extra : List Nat) :
    Except StructuralCause SteinerTree :=
  let allowed := usable ++ extra
  match allowed.find? (G.size ≤ ·) with
  | some q => .error (.qubitOutOfRange q G.name)
  | none =>
    if !G.allows allowed root then .error (.rootOutside root)
    else
      match terminals.find? fun q => !G.allows allowed q with
      | some q => .error (.terminalOutside q)
      | none => attach G allowed terminals terminals.length ⟨root, []⟩

/-- The tree that joins `root` to `terminals` through the qubits `usable`. -/
def steinerTree (G : CouplingGraph) (root : Nat) (terminals usable : List Nat) :
    Except StructuralCause SteinerTree :=
  G.steinerTreeWith root terminals usable []

end CouplingGraph

end CnotSynthesis
