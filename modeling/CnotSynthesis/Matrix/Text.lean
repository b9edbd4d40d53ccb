import CnotSynthesis.Json.Value
import CnotSynthesis.Matrix.Basic

/-! # Matrices as rows of digits

* **`ParityMatrix.ofRows`** — a matrix from rows of numbers; the first row fixes the width, and the
  first fault in reading order is reported, a wrong length before a wrong entry.
* **`ParityMatrix.ofText`** — the same from rows of text, a byte for each entry.
* **`ParityMatrix.toText`** — the rows of `0`s and `1`s that `ofText` reads back, **`toText?`** for
  any number of rows.
* **`display`**, **`describe`** — the matrix for people. -/

namespace CnotSynthesis.ParityMatrix

/-- What is wrong with row number `r`, if anything. -/
def rowFault? (width r : Nat) (row : List Nat) : Option AlgebraError :=
  if row.length ≠ width then some (.raggedRow width row.length r)
  else (row.findIdx? (1 < ·)).map fun c => .invalidEntry r c (row.getD c 0)

/-- The matrix with the given rows of zeros and ones. -/
def ofRows (rows : List (List Nat)) : Except AlgebraError ParityMatrix :=
  let width := (rows.head?.map List.length).getD 0
  match rows.zipIdx.findSome? fun (row, r) => rowFault? width r row with
  | some fault => .error fault
  | none => .ok (ofBitRows (rows.map fun row => BitRow.ofFn width fun c => row.getD c 0 == 1))

/-- The entries that a text writes: its bytes counted from the digit zero, modulo 256. -/
def textEntries (s : String) : List Nat := s.toUTF8.data.toList.map fun b => (b.toNat + 208) % 256

/-- The matrix with the given rows of digits. -/
def ofText (rows : List String) : Except AlgebraError ParityMatrix := ofRows (rows.map textEntries)

/-- The digit of an entry. -/
def digit (b : Bool) : Char := if b then '1' else '0'

/-- Each row as digits, column 0 first. -/
def toText (M : ParityMatrix) : List String :=
  M.rowList.map fun row => String.ofList ((List.range M.cols).map fun c => digit (row.bit c))

/-- As `toText`, in a list with room for all rows: a matrix without columns may have more of them
than a list can hold. -/
def toText? (M : ParityMatrix) : Except Breach (List String) :=
  (requireRoom M.rows).map fun _ => M.toText

/-- Each row between brackets on a line of its own. -/
def display (M : ParityMatrix) : String :=
  String.join (M.rowList.map fun row =>
    "[" ++ " ".intercalate ((List.range M.cols).map fun c => (digit (row.bit c)).toString) ++ "]\n")

/-- The shape and the rows on one line. -/
def describe (M : ParityMatrix) : String :=
  s!"GF2Matrix \x7b rows: {M.rows}, cols: {M.cols}, data: [" ++
    ", ".intercalate (M.toText.map fun row => "\"" ++ row ++ "\"") ++ "] \x7d"

/-- The rows of digits as a document. -/
def toJson (M : ParityMatrix) : Json := .array (M.toText.map .string)

/-- A matrix from a document. -/
def ofJson? (v : Json) : Option ParityMatrix := do
  (ofText (← v.list? Json.text?)).toOption

end CnotSynthesis.ParityMatrix
