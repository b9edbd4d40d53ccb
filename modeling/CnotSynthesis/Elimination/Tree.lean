import CnotSynthesis.Elimination.Reduction
import CnotSynthesis.Graph.SteinerTree

/-! # Row additions along a tree

Rows are the nodes of a rooted tree, and a row is only ever added into a neighbour in the tree.

* **`lower t column`** — gathers a one at the root and clears the column at every other node.
* **`upper t column`** — adds the root row into every node that holds a one in the column, and
  leaves the other nodes as they were.
* **`collect t selected`** — adds the selected rows into the root row.

`raise`, `cancel` and `spread` are the passes over the tree that the first two consist of. -/

namespace CnotSynthesis.Reduction

/-! ## Passes -/

/-- Children before parents, a parent that holds a zero in the column takes the row of its child. -/
def raise (t : SteinerTree) (column : Nat) : Reduction Unit :=
  t.postorder.forM fun (p, c) => do
    if (← matrix).entry p column then return () else addRow p c

/-- Children before parents, every node takes the row of its parent. -/
def cancel (t : SteinerTree) : Reduction Unit :=
  t.postorder.forM fun (p, c) => addRow c p

/-- The root row is added into every other node: children before parents below the root, then
parents before children, every node takes the row of its parent. -/
def spread (t : SteinerTree) : Reduction Unit := do
  t.postorder.forM fun (p, c) => if p = t.root then return () else addRow c p
  t.edges.forM fun (p, c) => addRow c p

/-- The sum of the selected nodes is added into the root: parents before children, a parent takes
the row of a child that is not selected; then children before parents, a parent takes the row of
every child. -/
def collect (t : SteinerTree) (selected : List Nat) : Reduction Unit := do
  t.edges.forM fun (p, c) => if selected.contains c then return () else addRow p c
  t.postorder.forM fun (p, c) => addRow p c

/-! ## Eliminations -/

/-- What is wrong with the column after the one was gathered at the root, if anything. -/
def lowerFault? (M : ParityMatrix) (t : SteinerTree) (column : Nat) : Option StructuralCause :=
  if !M.entry t.root column then some (.rootClearAfterLower t.root column)
  else (t.edges.find? fun (_, c) => M.entry c column).map fun (_, c) => .rowSetAfterLower c column

/-- Gather a one of the column at the root and clear it at every other node. -/
def lower (t : SteinerTree) (column : Nat) : Reduction Unit := do
  raise t column
  cancel t
  match lowerFault? (← matrix) t column with
  | some cause => fail cause
  | none => return ()

/-- Fan out until no node but the root holds a one; every round is over a smaller tree, and `fuel`
bounds the size of the first. -/
def upperFrom (column : Nat) : Nat → SteinerTree → Reduction Unit
  | 0, _ => return ()
  | fuel + 1, t =>
    if t.edges.isEmpty then return ()
    else do
      spread t
      let M ← matrix
      let next := t.prune fun q => q != t.root && M.entry q column
      if t.edges.length ≤ next.edges.length then fail (.upperDiverges column)
      else upperFrom column fuel next

/-- Add the root row into every node that holds a one of the column. -/
def upper (t : SteinerTree) (column : Nat) : Reduction Unit := do
  let M ← matrix
  if !M.entry t.root column then fail (.rootClearBeforeUpper t.root column)
  else upperFrom column t.edges.length (t.prune (M.entry · column))

end CnotSynthesis.Reduction
