import CnotSynthesis.Elimination.Script

/-! # Gaussian elimination

Columns are taken left to right. The first row from the pivot row on with a one in the column is
added into the pivot row (rows are never swapped), which then clears the rows below; a column
without such a row is skipped. Full reduction afterwards clears the rows above each pivot, last
pivot first.

* **`Script.gauss full`** — both passes; the number of pivots is the rank.
* **`gauss full M`** — carried out on `M` alone.
* **`gaussWith record full M c`** — carried out on `M` beside a companion `c`.
* **`ParityMatrix.rank`**, **`ParityMatrix.inverse?`** — read off them. -/

namespace CnotSynthesis

namespace Script

variable {ε : Type}

/-- Add row `source` into those of `targets` that hold a one in `column`. -/
def clearRows (column source : Nat) (targets : List Nat) : Script ε Unit :=
  targets.forM fun r => do
    if (← matrix).entry r column then addRow r source

/-- Take column `c`: find a pivot for the next row and clear the rows below it. Pivot `i` stands in
row `i`, column `pivots[i]`. -/
def takeColumn (pivots : List Nat) (c : Nat) : Script ε (List Nat) := do
  let M ← matrix
  let pivot := pivots.length
  match (List.range' pivot (M.rows - pivot)).find? (M.entry · c) with
  | none => return pivots
  | some found =>
    if found ≠ pivot then addRow pivot found
    clearRows c pivot (List.range' (pivot + 1) (M.rows - (pivot + 1)))
    return pivots ++ [c]

/-- The downward pass over `k` columns from column `c` on; it ends when every row has its pivot. -/
def passDown : Nat → Nat → List Nat → Script ε (List Nat)
  | 0, _, pivots => return pivots
  | k + 1, c, pivots => do
    if (← matrix).rows ≤ pivots.length then return pivots
    else passDown k (c + 1) (← takeColumn pivots c)

/-- The upward pass: above each pivot, last pivot first, the column is cleared. -/
def passUp (pivots : List Nat) : Script ε Unit :=
  pivots.zipIdx.reverse.forM fun (c, p) => clearRows c p (List.range p)

/-- Gaussian elimination: the rank. -/
def gauss (full : Bool) : Script ε Nat := do
  let pivots ← passDown (← matrix).cols 0 []
  if full then passUp pivots
  return pivots.length

end Script

/-- Gaussian elimination of `M`: the work done and the rank. -/
def gauss (full : Bool) (M : ParityMatrix) : Work × Nat :=
  match (Script.gauss full : Script Empty Nat).exec (Work.start M) with
  | (.ok rank, w) => (w, rank)

/-! ## Companions -/

/-- A matrix and its companion after an elimination. -/
structure Accompanied (γ ε : Type) where
  matrix : ParityMatrix
  companion : γ
  /-- The rank, or why a row addition was rejected. -/
  outcome : Except ε Nat

/-- Gaussian elimination of `M` beside the companion `c`. -/
def gaussWith {γ ε : Type} (record : γ → Nat → Nat → Except ε γ) (full : Bool) (M : ParityMatrix)
    (c : γ) : Accompanied γ ε :=
  let (outcome, matrix, companion) := (Script.gauss full).runOn (Bench.beside record) (M, c)
  ⟨matrix, companion, outcome⟩

namespace ParityMatrix

/-- Number of pivots of the downward pass. -/
def rank (M : ParityMatrix) : Nat := (CnotSynthesis.gauss false M).2

/-- The inverse of an invertible square matrix: the row additions that reduce `M` to the identity,
carried out on the identity beside it. -/
def inverse? (M : ParityMatrix) : Option ParityMatrix :=
  if M.isSquare then
    let record (inverse : ParityMatrix) (t s : Nat) : Except Empty ParityMatrix :=
      .ok (inverse.addRow t s)
    let after := gaussWith record true M (identity M.rows)
    match after.outcome with
    | .ok rank => if rank = M.rows then some after.companion else none
  else none

end ParityMatrix

end CnotSynthesis
