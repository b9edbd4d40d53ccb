import CnotSynthesis.Matrix.Basic
import Mathlib

/-! # Parity matrices as matrices modulo 2

The entries of a parity matrix are bits; read modulo 2 they form a matrix over `ZMod 2`, and the
operations on parity matrices become the operations of linear algebra.

* **`bitValue b`** — a bit as a number modulo 2; sums are exclusive or (`bitValue_bne`).
* **`M.row r`** — row `r` as a vector that is zero outside the matrix.
* **`M.toMatrix m n`** — the matrix of the first `m` rows and `n` columns. For the shape of `M` it
  determines `M` (`ParityMatrix.eq_of_toMatrix_eq`).
* **`toMatrix_mul`**, **`toMatrix_identity`**, **`toMatrix_transpose`** — the operations are those
  of linear algebra. The product is computed from the set bits of a packed row, so it rests on
  `BitRow.ones_eq`. -/

namespace CnotSynthesis

/-! ## Bits -/

/-- A bit as a number modulo 2. -/
def bitValue (b : Bool) : ZMod 2 := if b then 1 else 0

/-- A set bit is one. -/
@[simp] theorem bitValue_true : bitValue true = 1 := rfl

/-- A clear bit is zero. -/
@[simp] theorem bitValue_false : bitValue false = 0 := rfl

/-- **Exclusive or is addition modulo 2.** -/
@[simp] theorem bitValue_bne (a b : Bool) : bitValue (a != b) = bitValue a + bitValue b := by
  revert a b
  decide

/-- Adding bits is adding modulo two. -/
@[simp] theorem bitValue_xor (a b : Bool) : bitValue (a ^^ b) = bitValue a + bitValue b := by
  revert a b
  decide

/-- A bit can be read off its value. -/
theorem bitValue_injective : Function.Injective bitValue := by
  intro a b
  revert a b
  decide

/-- One is the value of a set bit only. -/
@[simp] theorem bitValue_eq_one {b : Bool} : bitValue b = 1 ↔ b = true := by
  revert b
  decide

/-- Zero is the value of a clear bit only. -/
@[simp] theorem bitValue_eq_zero {b : Bool} : bitValue b = 0 ↔ b = false := by
  revert b
  decide

/-! ## The set bits of a row -/

namespace BitRow

/-- **The set bits, word by word.** Listing the set bits of each word in turn lists the set bits of
the whole, from position `64 * k` on. -/
theorem flatMap_wordOnes (ws : List UInt64) (k : ℕ) :
    ((ws.zipIdx k).flatMap fun (w, i) => ((List.range 64).filter (wordBit w)).map (64 * i + ·)) =
      (List.range' (64 * k) (64 * ws.length)).filter fun j => bitAt ws (j - 64 * k) := by
  induction ws generalizing k with
  | nil => simp
  | cons w ws ih =>
    have hsplit : List.range' (64 * k) (64 * (w :: ws).length) =
        List.range' (64 * k) 64 ++ List.range' (64 * (k + 1)) (64 * ws.length) := by
      rw [List.length_cons, Nat.mul_add, Nat.mul_one, Nat.add_comm (64 * ws.length), Nat.mul_add,
        Nat.mul_one, List.range'_append_1]
    have hhead : (List.range' (64 * k) 64).filter (fun j => bitAt (w :: ws) (j - 64 * k)) =
        ((List.range 64).filter (wordBit w)).map (64 * k + ·) := by
      rw [List.range'_eq_map_range, List.filter_map]
      congr 1
      apply List.filter_congr
      intro j hj
      have hj : j < 64 := List.mem_range.mp hj
      have hdiv : j / 64 = 0 := Nat.div_eq_of_lt hj
      have hmod : j % 64 = j := Nat.mod_eq_of_lt hj
      simp [bitAt, hdiv, hmod]
    have htail : (List.range' (64 * (k + 1)) (64 * ws.length)).filter
          (fun j => bitAt (w :: ws) (j - 64 * k)) =
        (List.range' (64 * (k + 1)) (64 * ws.length)).filter
          fun j => bitAt ws (j - 64 * (k + 1)) := by
      apply List.filter_congr
      intro j hj
      have hle : 64 * (k + 1) ≤ j := (List.mem_range'_1.mp hj).1
      have hdiv : (j - 64 * k) / 64 = (j - 64 * (k + 1)) / 64 + 1 := by omega
      have hmod : (j - 64 * k) % 64 = (j - 64 * (k + 1)) % 64 := by omega
      simp [bitAt, hdiv, hmod]
    rw [List.zipIdx_cons, List.flatMap_cons, ih (k + 1), hsplit, List.filter_append, hhead, htail]

/-- **The ones of a row** are the positions inside its width that hold a set bit, ascending. -/
theorem ones_eq {n : ℕ} (r : BitRow n) : r.ones = (List.range n).filter r.bit := by
  have hlen : n ≤ 64 * r.words.length := by
    rw [r.length_words, wordCount]
    omega
  have hsplit : List.range (64 * r.words.length) =
      List.range n ++ List.range' n (64 * r.words.length - n) := by
    have happend := List.range'_append_1 (s := 0) (m := n) (n := 64 * r.words.length - n)
    rw [Nat.zero_add, Nat.add_sub_cancel' hlen] at happend
    rw [List.range_eq_range', List.range_eq_range', happend]
  have hrest : (List.range' n (64 * r.words.length - n)).filter r.bit = [] := by
    rw [List.filter_eq_nil_iff]
    intro j hj
    rw [r.bit_eq_false (List.mem_range'_1.mp hj).1]
    exact Bool.false_ne_true
  have hwords := flatMap_wordOnes r.words 0
  simp only [Nat.mul_zero, Nat.sub_zero, ← List.range_eq_range'] at hwords
  unfold ones
  rw [hwords]
  change (List.range (64 * r.words.length)).filter r.bit = _
  rw [hsplit, List.filter_append, hrest, List.append_nil]

/-- Bit `c` of a sum of rows is the sum of their bits. -/
theorem bitValue_foldl_add {n : ℕ} (rs : ℕ → BitRow n) (ks : List ℕ) (r : BitRow n) (c : ℕ) :
    bitValue ((ks.foldl (fun sum k => sum.add (rs k)) r).bit c) =
      bitValue (r.bit c) + (ks.map fun k => bitValue ((rs k).bit c)).sum := by
  induction ks generalizing r with
  | nil => simp
  | cons k ks ih =>
    rw [List.foldl_cons, ih, bit_add, bitValue_bne, List.map_cons, List.sum_cons, add_assoc]

end BitRow

namespace ParityMatrix

/-! ## Rows and matrices modulo 2 -/

/-- Row `r` as a vector modulo 2, zero outside the matrix. -/
def row (M : ParityMatrix) (r : ℕ) : ℕ → ZMod 2 := fun c => bitValue (M.entry r c)

/-- The entries of a row. -/
theorem row_apply (M : ParityMatrix) (r c : ℕ) : M.row r c = bitValue (M.entry r c) := rfl

/-- The first `m` rows and `n` columns as a matrix modulo 2. -/
def toMatrix (M : ParityMatrix) (m n : ℕ) : Matrix (Fin m) (Fin n) (ZMod 2) :=
  Matrix.of fun i j => bitValue (M.entry i j)

/-- The entries of a matrix. -/
theorem toMatrix_apply (M : ParityMatrix) {m n : ℕ} (i : Fin m) (j : Fin n) :
    M.toMatrix m n i j = bitValue (M.entry i j) := rfl

/-- **The view is faithful**: matrices of one shape with the same matrix modulo 2 are equal. -/
theorem eq_of_toMatrix_eq {M N : ParityMatrix} (hr : M.rows = N.rows) (hc : M.cols = N.cols)
    (h : M.toMatrix M.rows M.cols = N.toMatrix M.rows M.cols) : M = N := by
  apply ext_entry hr hc
  intro r c hr' hc'
  exact bitValue_injective (congrFun (congrFun h ⟨r, hr'⟩) ⟨c, hc'⟩)

/-- Matrices of one shape with the same rows are equal. -/
theorem eq_of_row_eq {M N : ParityMatrix} (hr : M.rows = N.rows) (hc : M.cols = N.cols)
    (h : ∀ r, r < M.rows → M.row r = N.row r) : M = N := by
  apply ext_entry hr hc
  intro r c hr' _
  exact bitValue_injective (congrFun (h r hr') c)

/-- The identity is the identity matrix. -/
theorem toMatrix_identity (n : ℕ) : (identity n).toMatrix n n = 1 := by
  ext i j
  rw [toMatrix_apply, entry_identity, Matrix.one_apply]
  by_cases hij : i = j
  · subst hij
    simp
  · have : ¬ (i : ℕ) = j := fun h => hij (Fin.ext h)
    simp [hij, this]

/-- Transposing is transposing the matrix. -/
theorem toMatrix_transpose (M : ParityMatrix) (m n : ℕ) :
    M.transpose.toMatrix m n = (M.toMatrix n m).transpose := by
  ext i j
  rw [toMatrix_apply, entry_transpose]
  rfl

/-! ## Products -/

/-- **Entries of a product** are sums of products, over the columns of the first factor. -/
theorem bitValue_entry_mul (M N : ParityMatrix) (r c : ℕ) :
    bitValue ((M.mul N).entry r c) =
      ∑ k ∈ Finset.range M.cols, bitValue (M.entry r k) * bitValue (N.entry k c) := by
  by_cases hrc : r < M.rows ∧ c < N.cols
  · obtain ⟨hr, hc⟩ := hrc
    have hrow : (M.mul N).entry r c = ((M.rowAt r).ones.foldl
        (fun sum k => sum.add (N.rowAt k)) (BitRow.zero N.cols)).bit c := by
      rw [entry_eq]
      change ((((List.range (storedRows M.rows N.cols)).map fun i =>
        (M.rowAt i).ones.foldl (fun sum k => sum.add (N.rowAt k)) (BitRow.zero N.cols))[r]?).getD
          (BitRow.zero N.cols)).bit c = _
      rw [storedRows_of_lt M.rows hc, List.getElem?_map, List.getElem?_range hr]
      rfl
    -- the set bits of the row pick the summands that do not vanish
    have hsum : ∀ l : List ℕ, ((l.filter (M.rowAt r).bit).map
        fun k => bitValue ((N.rowAt k).bit c)).sum =
          (l.map fun k => bitValue (M.entry r k) * bitValue (N.entry k c)).sum := by
      intro l
      induction l with
      | nil => rfl
      | cons k l ih =>
        rw [List.map_cons, List.sum_cons, ← ih, List.filter_cons, bit_rowAt]
        cases M.entry r k <;> simp [bit_rowAt]
    rw [hrow, BitRow.bitValue_foldl_add, BitRow.bit_zero, bitValue_false, zero_add, BitRow.ones_eq,
      hsum]
    rfl
  · rw [entry_eq_false (by simpa using hrc)]
    symm
    apply Finset.sum_eq_zero
    intro k _
    by_cases hr : r < M.rows
    · rw [entry_eq_false (M := N) (by omega), bitValue_false, mul_zero]
    · rw [entry_eq_false (M := M) (by omega), bitValue_false, zero_mul]

/-- **The product is the product of linear algebra.** -/
theorem toMatrix_mul {M N : ParityMatrix} {k : ℕ} (hc : M.cols = k) (m n : ℕ) :
    (M.mul N).toMatrix m n = M.toMatrix m k * N.toMatrix k n := by
  ext i j
  rw [toMatrix_apply, bitValue_entry_mul, Matrix.mul_apply, hc,
    ← Fin.sum_univ_eq_sum_range (fun k => bitValue (M.entry i k) * bitValue (N.entry k j))]
  rfl

/-- Products can be taken in any order. -/
theorem mul_mul {L M N : ParityMatrix} (h : L.cols = M.rows) :
    (L.mul M).mul N = L.mul (M.mul N) := by
  refine eq_of_toMatrix_eq (by rfl) (by rfl) ?_
  rw [toMatrix_mul (M := L.mul M) (cols_mul L M), toMatrix_mul h, toMatrix_mul h, toMatrix_mul rfl,
    Matrix.mul_assoc]

/-- The identity changes nothing from the left. -/
theorem identity_mul {M : ParityMatrix} {n : ℕ} (h : M.rows = n) : (identity n).mul M = M := by
  subst h
  refine eq_of_toMatrix_eq (by rfl) (by rfl) ?_
  change ((identity M.rows).mul M).toMatrix M.rows M.cols = M.toMatrix M.rows M.cols
  rw [toMatrix_mul (cols_identity _), toMatrix_identity, Matrix.one_mul]

/-- The identity changes nothing from the right. -/
theorem mul_identity {M : ParityMatrix} {n : ℕ} (h : M.cols = n) : M.mul (identity n) = M := by
  subst h
  refine eq_of_toMatrix_eq (by rfl) (by rfl) ?_
  change (M.mul (identity M.cols)).toMatrix M.rows M.cols = M.toMatrix M.rows M.cols
  rw [toMatrix_mul rfl, toMatrix_identity, Matrix.mul_one]

/-- The transpose of a product is the product of the transposes in reverse order. -/
theorem transpose_mul {M N : ParityMatrix} (h : M.cols = N.rows) :
    (M.mul N).transpose = N.transpose.mul M.transpose := by
  refine eq_of_toMatrix_eq (by rfl) (by rfl) ?_
  rw [toMatrix_transpose, toMatrix_mul h, toMatrix_mul (cols_transpose N), toMatrix_transpose,
    toMatrix_transpose, Matrix.transpose_mul]

/-- Transposing twice changes nothing. -/
theorem transpose_transpose (M : ParityMatrix) : M.transpose.transpose = M := by
  refine eq_of_toMatrix_eq (by rfl) (by rfl) ?_
  rw [toMatrix_transpose, toMatrix_transpose, Matrix.transpose_transpose]

/-- The identity is its own transpose. -/
theorem transpose_identity (n : ℕ) : (identity n).transpose = identity n := by
  refine eq_of_toMatrix_eq (by rfl) (by rfl) ?_
  change (identity n).transpose.toMatrix n n = (identity n).toMatrix n n
  rw [toMatrix_transpose, toMatrix_identity, Matrix.transpose_one]

end ParityMatrix

end CnotSynthesis
