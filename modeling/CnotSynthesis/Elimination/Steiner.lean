import CnotSynthesis.Elimination.Gauss
import CnotSynthesis.Elimination.Tree

/-! # Gaussian elimination along Steiner trees

Every column is cleared along a tree of coupled qubits, so every row addition is between coupled
qubits.

* **`steinerByRow`** — pivots by row number, any matrix.
* **`steinerAlongOrder`** — pivots in the elimination order of the graph, for invertible matrices.
* **`steiner order full G`** — one of the two. -/

namespace CnotSynthesis

/-- The order in which pivots are taken. -/
inductive PivotOrder where
  /-- By row number. -/
  | byRow
  /-- In the elimination order of the graph; matrices that are not invertible are reduced by row
  number. -/
  | byGraph
deriving DecidableEq, Repr

namespace PivotOrder

/-- Every order. -/
def all : List PivotOrder := [.byRow, .byGraph]

/-- The name of an order in documents. -/
def name : PivotOrder → String
  | .byRow => "iterative"
  | .byGraph => "recursive"

/-- The order with the given name. -/
def find? (text : String) : Option PivotOrder := all.find? (·.name == text)

end PivotOrder

namespace Reduction

/-- The pivot and the other rows of `rows` that hold a one in the column. -/
def terminalsAt (M : ParityMatrix) (column pivot : Nat) (rows : List Nat) : List Nat :=
  rows.filter fun r => r == pivot || M.entry r column

/-! ## One column -/

/-- Make the pivot row the only one of `usable` with a one in the column. -/
def clearBelow (G : CouplingGraph) (column pivot : Nat) (terminals usable : List Nat) :
    Reduction Unit := do
  let t ← attempt (G.steinerTree pivot terminals usable)
  lower t column
  report (.pivot column pivot)

/-- The qubits to be admitted besides `earlier`: those on a shortest path to each terminal that
cannot be reached through `earlier` alone. -/
def detours (G : CouplingGraph) (root : Nat) (earlier : List Nat) :
    List Nat → Except StructuralCause (List Nat)
  | [] => .ok []
  | t :: rest => do
    if (G.shortestPathThrough root t earlier).isSome then detours G root earlier rest
    else
      match G.shortestPath root t with
      | none => .error (.noDetour t root)
      | some path => return path ++ (← detours G root earlier rest)

/-- The tree for the rows above a pivot: inside the rows `earlier`, with detours where these are not
enough. -/
def treeAbove (G : CouplingGraph) (root : Nat) (terminals earlier : List Nat) :
    Except StructuralCause SteinerTree := do
  let extra ← detours G root earlier terminals
  G.steinerTreeWith root terminals earlier extra

/-- Make the pivot row the only one of `earlier` with a one in the column. -/
def clearAbove (G : CouplingGraph) (column pivot : Nat) (earlier : List Nat) : Reduction Unit := do
  let terminals := terminalsAt (← matrix) column pivot earlier
  if terminals.length = 1 then return ()
  else
    let t ← attempt (treeAbove G pivot terminals earlier)
    upper t column

/-! ## Pivots by row number -/

/-- Take `k` columns from column `c` on, from pivot row `pivot` on: the columns that got a pivot. -/
def descend (G : CouplingGraph) : Nat → Nat → Nat → Reduction (List Nat)
  | 0, _, _ => return []
  | k + 1, c, pivot => do
    let M ← matrix
    if M.rows ≤ pivot then return []
    else
      let usable := List.range' pivot (M.rows - pivot)
      let terminals := terminalsAt M c pivot usable
      if terminals.length = 1 ∧ !M.entry pivot c then descend G k (c + 1) pivot
      else
        clearBelow G c pivot terminals usable
        return c :: (← descend G k (c + 1) (pivot + 1))

/-- Clear above each pivot `(column, row)`, in the given order. -/
def ascend (G : CouplingGraph) : List (Nat × Nat) → Reduction Unit
  | [] => return ()
  | (c, p) :: pivots => do
    clearAbove G c p (List.range (p + 1))
    ascend G pivots

/-- Pivots by row number: the rank. -/
def steinerByRow (G : CouplingGraph) (full : Bool) : Reduction Nat := do
  let M ← matrix
  let columns ← descend G M.cols 0 0
  if full then ascend G columns.zipIdx.reverse
  return columns.length

/-! ## Pivots in elimination order -/

/-- Take the rows in order, each as the pivot of the column of the same number; the rows still to
come are the usable ones. -/
def descendAlong (G : CouplingGraph) : List Nat → Reduction Unit
  | [] => return ()
  | p :: rest => do
    let M ← matrix
    let terminals := terminalsAt M p p (p :: rest)
    if terminals.length = 1 ∧ !M.entry p p then fail (.noPivot p (p :: rest))
    else
      clearBelow G p p terminals (p :: rest)
      descendAlong G rest

/-- Clear above each pivot, the pivots listed from the last one; the earlier ones are usable. -/
def ascendAlong (G : CouplingGraph) : List Nat → Reduction Unit
  | [] => return ()
  | p :: earlier => do
    clearAbove G p p (p :: earlier).reverse
    ascendAlong G earlier

/-- Pivots in elimination order: the number of rows. -/
def steinerAlongOrder (G : CouplingGraph) (full : Bool) : Reduction Nat := do
  descendAlong G G.eliminationOrder
  if full then ascendAlong G G.eliminationOrder.reverse
  return G.eliminationOrder.length

/-- Gaussian elimination along Steiner trees. -/
def steiner (order : PivotOrder) (full : Bool) (G : CouplingGraph) : Reduction Nat := do
  let M ← matrix
  if order = .byGraph ∧ M.isSquare ∧ M.rank = M.rows then steinerAlongOrder G full
  else steinerByRow G full

end Reduction

end CnotSynthesis
