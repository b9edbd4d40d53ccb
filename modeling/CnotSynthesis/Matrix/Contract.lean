import CnotSynthesis.Matrix.Basic

/-! # Matrix operations that check their arguments

The total operations of `CnotSynthesis.Matrix.Basic` behind their contracts: an index outside the
matrix is a `Breach`, operands that do not fit are an `AlgebraError`.

* **`entry?`**, **`setEntry?`**, **`addRow?`**, **`addCol?`** — entries and elementary operations.
* **`rowDigits?`**, **`rowOnes?`**, **`colOnes?`** … — what stands in a row or a column. An index is
  checked only where an entry is read, so a matrix without columns accepts every row number.
* **`zeros?`**, **`identity?`** — refuse shapes that cannot be held (`requireShape`).
* **`relabel?`**, **`mul?`**, **`block?`** — checked constructions. -/

namespace CnotSynthesis.ParityMatrix

/-- Entry `(r, c)`. -/
def entry? (M : ParityMatrix) (r c : Nat) : Except Breach Bool :=
  if r < M.rows ∧ c < M.cols then .ok (M.entry r c) else .error (.entry r c M.rows M.cols)

/-- Entry `(r, c)` replaced by `v`. -/
def setEntry? (M : ParityMatrix) (r c : Nat) (v : Bool) : Except Breach ParityMatrix :=
  if r < M.rows ∧ c < M.cols then .ok (M.setEntry r c v) else .error (.entry r c M.rows M.cols)

/-- What is wrong with adding row `s` into row `t` out of the given number of rows, if anything. -/
def rowBreach? (rows t s : Nat) : Option Breach :=
  if ¬ (t < rows ∧ s < rows) then some (.rowAddition t s rows)
  else if t = s then some .selfAddition
  else none

/-- Row `s` added into row `t`. -/
def addRow? (M : ParityMatrix) (t s : Nat) : Except Breach ParityMatrix :=
  match rowBreach? M.rows t s with
  | some breach => .error breach
  | none => .ok (M.addRow t s)

/-- Column `s` added into column `t`. -/
def addCol? (M : ParityMatrix) (t s : Nat) : Except Breach ParityMatrix :=
  if ¬ (t < M.cols ∧ s < M.cols) then .error (.columnAddition t s M.cols)
  else if t = s then .error .selfAddition
  else .ok (M.addCol t s)

/-- Row `s` added into row `t`, refused when the matrix has no such rows. -/
def recordRow (M : ParityMatrix) (t s : Nat) : Except (Fault AlgebraError) ParityMatrix :=
  if M.rows ≤ t ∨ M.rows ≤ s then .error (.refused (.rowsBeyond M.rows t s))
  else (M.addRow? t s).mapError .broken

/-! ## Rows and columns -/

/-- The packed row `r`. Without columns there is nothing to read, and every row number that has a
successor among the words is accepted. -/
def packedRow? (M : ParityMatrix) (r : Nat) : Except Breach (BitRow M.cols) :=
  if r < M.rows ∨ (M.cols = 0 ∧ r + 1 < UInt64.size) then .ok (M.rowAt r) else .error .position

/-- The columns of the ones in row `r`, ascending. -/
def rowOnes? (M : ParityMatrix) (r : Nat) : Except Breach (List Nat) :=
  (M.packedRow? r).map (·.ones)

/-- The number of ones in row `r`. -/
def rowWeight? (M : ParityMatrix) (r : Nat) : Except Breach Nat := (M.packedRow? r).map (·.weight)

/-- Whether row `r` has no ones. -/
def rowIsZero? (M : ParityMatrix) (r : Nat) : Except Breach Bool := (M.packedRow? r).map (·.isZero)

/-- The entries of row `r` as numbers, in a list with room for all columns. -/
def rowDigits? (M : ParityMatrix) (r : Nat) : Except Breach (List Nat) := do
  requireRoom M.cols
  if r < M.rows ∨ M.cols = 0 then return (List.range M.cols).map fun c => (M.entry r c).toNat
  else throw (.entry r 0 M.rows M.cols)

/-- The rows of the ones in column `c`, ascending. -/
def colOnes? (M : ParityMatrix) (c : Nat) : Except Breach (List Nat) :=
  if c < M.cols ∨ M.rows = 0 then .ok (M.colOnes c) else .error (.entry 0 c M.rows M.cols)

/-- The number of ones in column `c`. -/
def colWeight? (M : ParityMatrix) (c : Nat) : Except Breach Nat :=
  (M.colOnes? c).map (·.length)

/-! ## Constructions -/

/-- Check that the words of a matrix of the given shape can be held. -/
def requireShape (rows cols : Nat) : Except Breach Unit := requireRoom (rows * wordCount cols)

/-- The matrix of zeros. -/
def zeros? (rows cols : Nat) : Except Breach ParityMatrix :=
  (requireShape rows cols).map fun _ => zeros rows cols

/-- The matrix with ones on the diagonal. -/
def identity? (n : Nat) : Except Breach ParityMatrix :=
  (requireShape n n).map fun _ => identity n

/-- Rows and columns relabelled: entry `(r, c)` of the result is entry `(rowPerm[r], colPerm[c])`.
The row labels are checked first. -/
def relabel? (M : ParityMatrix) (rowPerm colPerm : List Nat) :
    Except AlgebraError ParityMatrix := do
  Permutation.check rowPerm M.rows
  Permutation.check colPerm M.cols
  return M.relabel rowPerm colPerm

/-- The product of two matrices that fit. -/
def mul? (M N : ParityMatrix) : Except (Fault AlgebraError) ParityMatrix :=
  if M.cols = N.rows then ((requireShape M.rows N.cols).map fun _ => M.mul N).mapError .broken
  else .error (.refused (.productMismatch M.cols N.rows))

/-- The rows `rs` and columns `cs`; the first entry outside the matrix, in reading order, is a
breach. -/
def block? (M : ParityMatrix) (rs cs : List Nat) : Except Breach ParityMatrix :=
  let outside := rs.findSome? fun r => cs.findSome? fun c =>
    if r < M.rows ∧ c < M.cols then none else some (Breach.entry r c M.rows M.cols)
  match outside with
  | some breach => .error breach
  | none => .ok (M.block rs cs)

end CnotSynthesis.ParityMatrix
