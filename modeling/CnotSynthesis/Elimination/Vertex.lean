import CnotSynthesis.Elimination.Gauss
import CnotSynthesis.Elimination.Tree

/-! # Vertex elimination

Rows and columns are set aside in pairs. The row is one whose removal keeps the remaining rows
connected; its column becomes a unit vector, and the row is cleared on the remaining columns.

* **`Remaining`** — the rows and columns still there, and the row of each column set aside.
* **`clearPair`** — one pair.
* **`eliminateAll choose`** — pairs chosen by `choose` until nothing is left. -/

namespace CnotSynthesis

/-! ## Choosing a pair -/

/-- A choice among candidate rows, given the matrix, the candidates and the remaining columns. -/
abbrev RowStrategy := ParityMatrix → List Nat → List Nat → Option Nat

/-- A choice of a column, given the matrix, the chosen row and the remaining rows and columns. -/
abbrev ColumnStrategy := ParityMatrix → Nat → List Nat → List Nat → Option Nat

/-- The number with the smallest weight, the smallest such number. -/
def lightest (weight : Nat → Nat) (ns : List Nat) : Option Nat :=
  leastBy (fun a b => weight a < weight b || (weight a == weight b && a < b)) ns

namespace ParityMatrix

/-- Number of ones of row `r` on the given columns. -/
def rowWeightOn (M : ParityMatrix) (columns : List Nat) (r : Nat) : Nat :=
  columns.countP (M.entry r)

/-- Number of ones of column `c` on the given rows. -/
def colWeightOn (M : ParityMatrix) (rows : List Nat) (c : Nat) : Nat :=
  rows.countP (M.entry · c)

end ParityMatrix

/-- The candidate with the fewest ones on the remaining columns. -/
def lightestRow : RowStrategy := fun M candidates columns =>
  lightest (M.rowWeightOn columns) candidates

/-- The candidate with the lowest number. -/
def lowestRow : RowStrategy := fun _ candidates _ => lightest (fun _ => 0) candidates

/-- Among the columns in which the row holds a one, the one with the fewest ones on the remaining
rows. -/
def lightestColumn : ColumnStrategy := fun M row rows columns =>
  lightest (M.colWeightOn rows) (columns.filter (M.entry row))

/-! ## What remains -/

/-- The rows and columns still there. -/
structure Remaining where
  rows : List Nat
  columns : List Nat
  /-- The row of each column set aside, `unplaced` for the others. -/
  output : List Nat
deriving DecidableEq, Repr

namespace Remaining

/-- Nothing is set aside yet. -/
def start (n : Nat) : Remaining := ⟨List.range n, List.range n, List.replicate n unplaced⟩

/-- Set a row and a column aside. -/
def remove (p : Remaining) (row column : Nat) : Remaining :=
  ⟨p.rows.filter (· != row), p.columns.filter (· != column), p.output.set column row⟩

end Remaining

/-- A choice of a row and a column, given the matrix, what remains, and the rows that do not cut the
remaining ones. -/
abbrev PairStrategy := ParityMatrix → Remaining → List Nat → Option (Nat × Nat)

/-- The lowest row and the column of the same number. -/
def tiedPair : PairStrategy := fun M p candidates =>
  (lowestRow M candidates p.columns).map fun q => (q, q)

/-- A row first, then a column for it. -/
def freePair (chooseRow : RowStrategy) (chooseColumn : ColumnStrategy) : PairStrategy :=
  fun M p candidates => do
    let row ← chooseRow M candidates p.columns
    let column ← chooseColumn M row p.rows p.columns
    return (row, column)

/-! ## One pair -/

namespace Reduction

/-- Turn the column into the unit vector at the row, through the remaining rows. -/
def clearColumn (G : CouplingGraph) (row column : Nat) (rows : List Nat) : Reduction Unit := do
  let M ← matrix
  let ones := M.colOnes column
  match ones.find? fun r => !rows.contains r with
  | some stray => fail (.strayOne stray column)
  | none =>
    let terminals := if ones.contains row then ones else ones ++ [row]
    if 1 < terminals.length then do
      let t ← attempt (G.steinerTree row terminals rows)
      lower t column
    else if M.entry row column then return ()
    else fail (.zeroColumn column)

/-- The rows out of `rows` whose sum equals the row on the given columns. -/
def matchingRows (M : ParityMatrix) (row : Nat) (rows columns : List Nat) :
    Except StructuralCause (List Nat) :=
  match (M.block rows columns).inverse? with
  | none => .error (.singularBlock row)
  | some inverse =>
    let target := (List.range columns.length).filter fun k => M.entry row (columns.getD k 0)
    let selected := (List.range rows.length).filter fun j =>
      target.foldl (fun acc k => acc ^^ inverse.entry k j) false
    .ok (selected.map fun j => rows.getD j 0)

/-- Clear the row on the given columns by adding in the other remaining rows that match it. -/
def clearRow (G : CouplingGraph) (row : Nat) (rows restColumns : List Nat) : Reduction Unit := do
  let M ← matrix
  if restColumns.all fun c => !M.entry row c then return ()
  else
    let selected ← attempt (matchingRows M row (rows.filter (· != row)) restColumns)
    let t ← attempt (G.steinerTree row (selected ++ [row]) rows)
    collect t selected
    let M ← matrix
    match restColumns.find? (M.entry row) with
    | some c => fail (.leftoverOne row c)
    | none => return ()

/-- Turn the column into the unit vector at the row and clear the row on the other remaining
columns. -/
def clearPair (G : CouplingGraph) (row column : Nat) (p : Remaining) : Reduction Unit := do
  clearColumn G row column p.rows
  clearRow G row p.rows (p.columns.filter (· != column))

/-! ## All pairs -/

/-- Set the last row and column aside. -/
def finish (p : Remaining) : Reduction Remaining := do
  match p.rows, p.columns with
  | [row], [column] =>
    if (← matrix).entry row column then
      report (.vertex row column)
      return p.remove row column
    else fail (.lastEntryClear row column)
  | _, _ => return p

/-- Eliminate chosen pairs until at most one row is left, then that one. Every pair removes a row,
so the number of rows is enough fuel. -/
def eliminateFrom (G : CouplingGraph) (choose : PairStrategy) :
    Nat → Remaining → Reduction Remaining
  | 0, p => finish p
  | fuel + 1, p =>
    if p.rows.length ≤ 1 then finish p
    else do
      match choose (← matrix) p (G.removable p.rows) with
      | none => fail (.noVertex p.rows)
      | some (row, column) =>
        clearPair G row column p
        report (.vertex row column)
        eliminateFrom G choose fuel (p.remove row column)

/-- Eliminate chosen pairs until nothing is left. -/
def eliminateAll (G : CouplingGraph) (choose : PairStrategy) (p : Remaining) :
    Reduction Remaining :=
  eliminateFrom G choose p.rows.length p

/-- Check that the matrix is square and invertible: its size. -/
def requireInvertible : Reduction Nat := do
  let M ← matrix
  if !M.isSquare then .stop (.algebra (.notSquare M.rows M.cols))
  else if M.rank < M.rows then .stop (.notFullRank M.rank M.rows)
  else return M.rows

end Reduction

end CnotSynthesis
