import CnotSynthesis.Matrix.BitRow
import CnotSynthesis.Permutation

/-! # Parity matrices

A parity matrix has entries modulo 2. It is a list of packed rows of one width, so it may have any
number of rows and columns, zero included. Without columns there is nothing to store, however many
rows there are.

* **`M.entry r c`** — the view through which everything else is stated; `false` outside the matrix.
  Two matrices of one shape with the same entries are equal (`ParityMatrix.ext_entry`).
* **`M.addRow t s`**, **`M.addCol t s`** — the two elementary operations, a row (column) added into
  another, with `entry_addRow` and `entry_addCol`.
* **`ParityMatrix.ofFn`**, **`identity`**, **`transpose`**, **`relabel`**, **`block`**, **`mul`** —
  constructions, each with its `entry_` law.

The operations here are total; `CnotSynthesis.Matrix.Contract` holds the forms that check their
arguments. -/

namespace CnotSynthesis

/-- Number of rows that are stored: none when there are no columns. -/
def storedRows (rows cols : Nat) : Nat := if cols = 0 then 0 else rows

/-- No more rows are stored than there are. -/
theorem storedRows_le (rows cols : Nat) : storedRows rows cols ≤ rows := by
  unfold storedRows
  split <;> omega

/-- If there are columns, all rows are stored. -/
theorem storedRows_of_lt {c cols : Nat} (rows : Nat) (h : c < cols) : storedRows rows cols = rows :=
  if_neg (by omega)

/-- A matrix of entries modulo 2: packed rows of one width. -/
structure ParityMatrix where
  /-- Number of rows. -/
  rows : Nat
  /-- Number of columns. -/
  cols : Nat
  /-- The stored rows, top to bottom. -/
  data : List (BitRow cols)
  length_data : data.length = storedRows rows cols
deriving DecidableEq

namespace ParityMatrix

/-- Row `r`, or a row of zeros outside the matrix. -/
def rowAt (M : ParityMatrix) (r : Nat) : BitRow M.cols :=
  match M.data[r]? with
  | some row => row
  | none => BitRow.zero M.cols

/-- The row at a position; a row of zeros past the last one. -/
theorem rowAt_eq (M : ParityMatrix) (r : Nat) :
    M.rowAt r = M.data[r]?.getD (BitRow.zero M.cols) := by
  unfold rowAt
  cases M.data[r]? <;> rfl

/-- Entry `(r, c)`, `false` outside the matrix. -/
def entry (M : ParityMatrix) (r c : Nat) : Bool :=
  match M.data[r]? with
  | some row => row.bit c
  | none => false

/-- The entry at a position; zero outside the matrix. -/
theorem entry_eq (M : ParityMatrix) (r c : Nat) :
    M.entry r c = (M.data[r]?.getD (BitRow.zero M.cols)).bit c := by
  unfold entry
  cases M.data[r]? <;> simp

/-- An entry is a bit of its row. -/
theorem bit_rowAt (M : ParityMatrix) (r c : Nat) : (M.rowAt r).bit c = M.entry r c := by
  rw [entry_eq, rowAt_eq]

/-- All rows, top to bottom. -/
def rowList (M : ParityMatrix) : List (BitRow M.cols) :=
  if M.cols = 0 then List.replicate M.rows (BitRow.zero M.cols) else M.data

/-- All rows are listed. -/
@[simp] theorem length_rowList (M : ParityMatrix) : M.rowList.length = M.rows := by
  unfold rowList
  split
  · exact List.length_replicate
  · next h => rw [M.length_data, storedRows, if_neg h]

/-- The rows in the list are the rows of the matrix. -/
theorem getElem?_rowList {M : ParityMatrix} {r : Nat} (h : r < M.rows) :
    M.rowList[r]? = some (M.rowAt r) := by
  unfold rowList
  split
  · next hc =>
    have hdata : M.data = [] :=
      List.eq_nil_of_length_eq_zero (by rw [M.length_data, storedRows, if_pos hc])
    rw [List.getElem?_replicate, if_pos h, rowAt_eq, hdata]
    rfl
  · next hc =>
    have hlen : r < M.data.length := by
      rw [M.length_data, storedRows, if_neg hc]
      exact h
    rw [rowAt_eq, List.getElem?_eq_getElem hlen]
    rfl

/-- Whether there are as many rows as columns. -/
def isSquare (M : ParityMatrix) : Bool := M.rows == M.cols

/-! ## Construction -/

/-- The matrix with entry `f r c` at `(r, c)`. -/
def ofFn (rows cols : Nat) (f : Nat → Nat → Bool) : ParityMatrix where
  rows := rows
  cols := cols
  data := (List.range (storedRows rows cols)).map fun r => BitRow.ofFn cols (f r)
  length_data := by simp

/-- The matrix of the given rows. -/
def ofBitRows {cols : Nat} (rs : List (BitRow cols)) : ParityMatrix where
  rows := rs.length
  cols := cols
  data := rs.take (storedRows rs.length cols)
  length_data := by rw [List.length_take, Nat.min_eq_left (storedRows_le rs.length cols)]

/-- A number of rows of zeros; no row is made when there are none. -/
def zeroRows (cols : Nat) : Nat → List (BitRow cols)
  | 0 => []
  | k + 1 => List.replicate (k + 1) (BitRow.zero cols)

/-- Rows of zeros are copies of one. -/
theorem zeroRows_eq (cols k : Nat) : zeroRows cols k = List.replicate k (BitRow.zero cols) := by
  cases k <;> rfl

/-- The matrix of zeros. -/
def zeros (rows cols : Nat) : ParityMatrix where
  rows := rows
  cols := cols
  data := zeroRows cols (storedRows rows cols)
  length_data := by rw [zeroRows_eq, List.length_replicate]

/-- The matrix with ones on the diagonal. -/
def identity (n : Nat) : ParityMatrix := ofFn n n fun r c => r == c

@[simp] theorem rows_ofFn (rows cols : Nat) (f : Nat → Nat → Bool) :
    (ofFn rows cols f).rows = rows := rfl

@[simp] theorem cols_ofFn (rows cols : Nat) (f : Nat → Nat → Bool) :
    (ofFn rows cols f).cols = cols := rfl

@[simp] theorem rows_ofBitRows {cols : Nat} (rs : List (BitRow cols)) :
    (ofBitRows rs).rows = rs.length := rfl

@[simp] theorem cols_ofBitRows {cols : Nat} (rs : List (BitRow cols)) :
    (ofBitRows rs).cols = cols := rfl

@[simp] theorem rows_zeros (rows cols : Nat) : (zeros rows cols).rows = rows := rfl

@[simp] theorem cols_zeros (rows cols : Nat) : (zeros rows cols).cols = cols := rfl

@[simp] theorem rows_identity (n : Nat) : (identity n).rows = n := rfl

@[simp] theorem cols_identity (n : Nat) : (identity n).cols = n := rfl

/-- Entries outside the matrix read as zero. -/
theorem entry_eq_false {M : ParityMatrix} {r c : Nat} (h : ¬ (r < M.rows ∧ c < M.cols)) :
    M.entry r c = false := by
  rw [← bit_rowAt]
  by_cases hr : r < M.rows
  · exact BitRow.bit_eq_false _ (by omega)
  · have hlen := M.length_data
    have hle := storedRows_le M.rows M.cols
    rw [rowAt_eq, List.getElem?_eq_none (by omega)]
    exact BitRow.bit_zero _

/-- Entry `(r, c)` of `ofFn` is `f r c` inside the matrix. -/
theorem entry_ofFn (rows cols : Nat) (f : Nat → Nat → Bool) (r c : Nat) :
    (ofFn rows cols f).entry r c = (decide (r < rows) && decide (c < cols) && f r c) := by
  by_cases hc : c < cols
  · have hdata :
        (ofFn rows cols f).data = (List.range rows).map fun r => BitRow.ofFn cols (f r) := by
      simp only [ofFn, storedRows_of_lt rows hc]
    rw [entry_eq, hdata]
    change (((List.range rows).map fun r => BitRow.ofFn cols (f r))[r]?.getD
      (BitRow.zero cols)).bit c = _
    rw [List.getElem?_map]
    by_cases hr : r < rows
    · rw [List.getElem?_range hr]
      simp [BitRow.bit_ofFn, hr]
    · rw [List.getElem?_eq_none (by simp; omega)]
      simp [hr]
  · rw [entry_eq_false (by simp [hc])]
    simp [hc]

/-- Entry `(r, c)` of a matrix of rows is bit `c` of row `r`. -/
theorem entry_ofBitRows {cols : Nat} (rs : List (BitRow cols)) (r c : Nat) :
    (ofBitRows rs).entry r c = (rs[r]?.getD (BitRow.zero cols)).bit c := by
  by_cases hc : c < cols
  · have hdata : (ofBitRows rs).data = rs := by
      simp only [ofBitRows, storedRows_of_lt rs.length hc, List.take_length]
    rw [entry_eq, hdata]
    rfl
  · rw [entry_eq_false (by simp [hc]), BitRow.bit_eq_false _ (by omega)]

/-- The identity has ones on its diagonal. -/
theorem entry_identity (n r c : Nat) :
    (identity n).entry r c = (decide (r < n) && r == c) := by
  unfold identity
  rw [entry_ofFn]
  by_cases hr : r < n
  · by_cases hc : r = c
    · subst hc; simp [hr]
    · have : (r == c) = false := by simpa using hc
      rw [this]; simp
  · simp [hr]

/-- Matrices of one shape with the same entries are equal. -/
theorem ext_entry {M N : ParityMatrix} (hr : M.rows = N.rows) (hc : M.cols = N.cols)
    (h : ∀ r c, r < M.rows → c < M.cols → M.entry r c = N.entry r c) : M = N := by
  obtain ⟨m, k, xs, hx⟩ := M
  obtain ⟨n, l, ys, hy⟩ := N
  change m = n at hr
  change k = l at hc
  subst hr hc
  have hxy : xs = ys := by
    apply List.ext_getElem (hx.trans hy.symm)
    intro r h₁ h₂
    apply BitRow.ext_bit
    intro c hcc
    have hr : r < m := by
      rw [hx, storedRows_of_lt m hcc] at h₁
      exact h₁
    have := h r c hr hcc
    rw [entry_eq, entry_eq] at this
    simpa [List.getElem?_eq_getElem h₁, List.getElem?_eq_getElem h₂] using this
  subst hxy
  rfl

/-! ## Elementary operations -/

/-- Row `s` added into row `t`, a word at a time. -/
def addRow (M : ParityMatrix) (t s : Nat) : ParityMatrix where
  rows := M.rows
  cols := M.cols
  data := M.data.set t ((M.rowAt t).add (M.rowAt s))
  length_data := by rw [List.length_set, M.length_data]

/-- Column `s` added into column `t`: the bit at `t` is flipped in every row that holds a one
at `s`. -/
def addCol (M : ParityMatrix) (t s : Nat) : ParityMatrix where
  rows := M.rows
  cols := M.cols
  data := M.data.map fun r => if r.bit s then r.set t (!r.bit t) else r
  length_data := by rw [List.length_map, M.length_data]

/-- Entry `(r, c)` replaced by `v`. -/
def setEntry (M : ParityMatrix) (r c : Nat) (v : Bool) : ParityMatrix where
  rows := M.rows
  cols := M.cols
  data := M.data.modify r fun row => row.set c v
  length_data := by rw [List.length_modify, M.length_data]

@[simp] theorem rows_addRow (M : ParityMatrix) (t s : Nat) : (M.addRow t s).rows = M.rows := rfl

@[simp] theorem cols_addRow (M : ParityMatrix) (t s : Nat) : (M.addRow t s).cols = M.cols := rfl

@[simp] theorem rows_addCol (M : ParityMatrix) (t s : Nat) : (M.addCol t s).rows = M.rows := rfl

@[simp] theorem cols_addCol (M : ParityMatrix) (t s : Nat) : (M.addCol t s).cols = M.cols := rfl

@[simp] theorem rows_setEntry (M : ParityMatrix) (r c : Nat) (v : Bool) :
    (M.setEntry r c v).rows = M.rows := rfl

@[simp] theorem cols_setEntry (M : ParityMatrix) (r c : Nat) (v : Bool) :
    (M.setEntry r c v).cols = M.cols := rfl

/-- A row addition changes its target row only, by the entries of its source row. -/
theorem entry_addRow (M : ParityMatrix) (t s r c : Nat) :
    (M.addRow t s).entry r c =
      if r = t ∧ t < M.rows then (M.entry t c != M.entry s c) else M.entry r c := by
  by_cases hc : c < M.cols
  · have hlen : M.data.length = M.rows := by rw [M.length_data, storedRows_of_lt M.rows hc]
    simp only [entry_eq]
    unfold addRow
    simp only [List.getElem?_set]
    by_cases hrt : t = r
    · subst hrt
      by_cases ht : t < M.rows
      · simp [hlen, ht, rowAt_eq]
      · simp [hlen, ht]
    · have : ¬ r = t := fun h => hrt h.symm
      simp [hrt, this]
  · have hout (N : ParityMatrix) (hN : N.cols = M.cols) (i : Nat) : N.entry i c = false :=
      entry_eq_false (by omega)
    simp [hout (M.addRow t s) rfl, hout M rfl]

/-- A column addition changes its target column only, by the entries of its source column. -/
theorem entry_addCol (M : ParityMatrix) (t s r c : Nat) :
    (M.addCol t s).entry r c =
      if c = t ∧ t < M.cols then (M.entry r t != M.entry r s) else M.entry r c := by
  simp only [entry_eq]
  unfold addCol
  simp only [List.getElem?_map]
  cases hrow : M.data[r]? with
  | none =>
    simp
  | some row =>
    simp only [Option.map_some, Option.getD_some]
    by_cases hs : row.bit s
    · rw [if_pos hs, BitRow.bit_set]
      by_cases hc : c = t ∧ t < M.cols
      · rw [if_pos hc, if_pos hc, hs]; simp
      · rw [if_neg hc, if_neg hc]
    · rw [if_neg hs]
      by_cases hc : c = t ∧ t < M.cols
      · rw [if_pos hc]; simp [hs, hc.1]
      · rw [if_neg hc]

/-- Writing an entry changes that entry only. -/
theorem entry_setEntry (M : ParityMatrix) (r c : Nat) (v : Bool) (i j : Nat) :
    (M.setEntry r c v).entry i j =
      if i = r ∧ j = c ∧ r < M.rows ∧ c < M.cols then v else M.entry i j := by
  simp only [entry_eq]
  unfold setEntry
  simp only [List.getElem?_modify]
  by_cases hir : r = i
  · subst hir
    have hlen := M.length_data
    cases hrow : M.data[r]? with
    | none =>
      have : ¬ (r < M.rows ∧ c < M.cols) := by
        rintro ⟨hr, hc⟩
        rw [storedRows_of_lt M.rows hc] at hlen
        have := List.getElem?_eq_none_iff.mp hrow
        omega
      simp [this]
    | some row =>
      have hle := storedRows_le M.rows M.cols
      have hr := (List.getElem?_eq_some_iff.mp hrow).1
      have : r < M.rows := by omega
      simp [BitRow.bit_set, this]
  · have : ¬ i = r := fun h => hir h.symm
    simp [hir, this]

/-! ## Constructions from other matrices -/

/-- Rows and columns exchanged. -/
def transpose (M : ParityMatrix) : ParityMatrix := ofFn M.cols M.rows fun r c => M.entry c r

/-- Entry `(r, c)` of the result is entry `(rowPerm[r], colPerm[c])` of `M`. -/
def relabel (M : ParityMatrix) (rowPerm colPerm : List Nat) : ParityMatrix :=
  ofFn M.rows M.cols fun r c => M.entry (rowPerm.getD r 0) (colPerm.getD c 0)

/-- The rows `rs` and columns `cs` of `M`, in the given order. -/
def block (M : ParityMatrix) (rs cs : List Nat) : ParityMatrix :=
  ofFn rs.length cs.length fun r c => M.entry (rs.getD r 0) (cs.getD c 0)

/-- The product: row `i` is the sum of the rows of `N` at the ones of row `i` of `M`. -/
def mul (M N : ParityMatrix) : ParityMatrix where
  rows := M.rows
  cols := N.cols
  data := (List.range (storedRows M.rows N.cols)).map fun i =>
    (M.rowAt i).ones.foldl (fun sum k => sum.add (N.rowAt k)) (BitRow.zero N.cols)
  length_data := by simp

@[simp] theorem rows_transpose (M : ParityMatrix) : M.transpose.rows = M.cols := rfl

@[simp] theorem cols_transpose (M : ParityMatrix) : M.transpose.cols = M.rows := rfl

@[simp] theorem rows_relabel (M : ParityMatrix) (p q : List Nat) :
    (M.relabel p q).rows = M.rows := rfl

@[simp] theorem cols_relabel (M : ParityMatrix) (p q : List Nat) :
    (M.relabel p q).cols = M.cols := rfl

@[simp] theorem rows_block (M : ParityMatrix) (rs cs : List Nat) :
    (M.block rs cs).rows = rs.length := rfl

@[simp] theorem cols_block (M : ParityMatrix) (rs cs : List Nat) :
    (M.block rs cs).cols = cs.length := rfl

@[simp] theorem rows_mul (M N : ParityMatrix) : (M.mul N).rows = M.rows := rfl

@[simp] theorem cols_mul (M N : ParityMatrix) : (M.mul N).cols = N.cols := rfl

/-- Entries of the transpose. -/
theorem entry_transpose (M : ParityMatrix) (r c : Nat) : M.transpose.entry r c = M.entry c r := by
  unfold transpose
  rw [entry_ofFn]
  by_cases h : c < M.rows ∧ r < M.cols
  · simp [h.1, h.2]
  · rw [entry_eq_false h]; simp

/-- Entries of a relabelled matrix. -/
theorem entry_relabel (M : ParityMatrix) (p q : List Nat) {r c : Nat} (hr : r < M.rows)
    (hc : c < M.cols) : (M.relabel p q).entry r c = M.entry (p.getD r 0) (q.getD c 0) := by
  unfold relabel
  rw [entry_ofFn]; simp [hr, hc]

/-- Entries of a block. -/
theorem entry_block (M : ParityMatrix) (rs cs : List Nat) {r c : Nat} (hr : r < rs.length)
    (hc : c < cs.length) : (M.block rs cs).entry r c = M.entry (rs.getD r 0) (cs.getD c 0) := by
  unfold block
  rw [entry_ofFn]; simp [hr, hc]

/-! ## Ones -/

/-- Row numbers of the ones in column `c`, ascending. -/
def colOnes (M : ParityMatrix) (c : Nat) : List Nat := (List.range M.rows).filter (M.entry · c)

/-- Whether this is an identity matrix. -/
def isIdentity (M : ParityMatrix) : Bool := M.isSquare && M == identity M.rows

/-- Whether every one stands on or above the diagonal. -/
def isUpperTriangular (M : ParityMatrix) : Bool :=
  M.data.zipIdx.all fun (row, r) => row.ones.all fun c => r ≤ c

end ParityMatrix

end CnotSynthesis
