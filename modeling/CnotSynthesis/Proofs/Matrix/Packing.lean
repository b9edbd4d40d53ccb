import CnotSynthesis.Matrix.Contract
import CnotSynthesis.Proofs.Matrix.ReducedForm
import CnotSynthesis.Proofs.Placement.Operators

/-! # Matrices as packed words

Row after row, the words of a matrix form one list with `wordCount cols` words for each row. Bit `c`
of row `r` stands in word `r * wordCount cols + c / 64` at position `c % 64`, and the positions past
the last column are clear.

* **`ParityMatrix.words M`** — the words of all rows; **`bitAt_position`** — their bits.
* **`Packs ws M`** — the words `ws` hold `M`. Exactly one list of words does that
  (`ParityMatrix.packs_iff`), so comparing words is comparing entries.
* **`bitMask`**, **`writeBit`**, **`maskTail`** — what an operation does to one word.
  **`ParityMatrix.words_setEntry`**, **`words_addRow`**, **`words_addCol`**, **`words_mul`**,
  **`words_random`** — the operations on matrices as operations on the words;
  **`words_eq_foldl`** — any matrix, written into clear words.
* **`BitRow.weight_eq`**, **`BitRow.isZero_iff`** — tests of whole words are tests of entries.
* **`ParityMatrix.FaithfullyPacked`**, **`ParityMatrix.packed_specification`** — words, entries and
  operations together. -/

namespace CnotSynthesis

/-! ## Bits of words -/

/-- The word in which only the bit of position `j` is set. -/
def bitMask (j : ℕ) : UInt64 := 1 <<< UInt64.ofNat (j % 64)

/-- A mask is a power of two. -/
theorem toNat_bitMask (j : ℕ) : (bitMask j).toNat = 2 ^ (j % 64) := by
  have hlt : 2 ^ (j % 64) < 2 ^ 64 := Nat.pow_lt_pow_right (by decide) (Nat.mod_lt j (by decide))
  have hshift : (UInt64.ofNat (j % 64)).toNat % 64 = j % 64 := by
    rw [UInt64.toNat_ofNat']
    omega
  rw [bitMask, UInt64.toNat_shiftLeft, hshift, UInt64.toNat_one, Nat.one_shiftLeft,
    Nat.mod_eq_of_lt hlt]

/-- The only bit of a mask. -/
theorem wordBit_bitMask (j b : ℕ) : wordBit (bitMask j) b = decide (j % 64 = b) := by
  rw [wordBit, toNat_bitMask, Nat.testBit_two_pow]

/-- Below a mask all bits are set. -/
theorem wordBit_bitMask_sub_one (j b : ℕ) : wordBit (bitMask j - 1) b = decide (b < j % 64) := by
  have hpos : 0 < 2 ^ (j % 64) := Nat.two_pow_pos _
  have hle : 1 ≤ bitMask j := UInt64.le_iff_toNat_le.mpr (by rw [toNat_bitMask]; exact hpos)
  rw [wordBit, UInt64.toNat_sub_of_le _ _ hle, toNat_bitMask, UInt64.toNat_one,
    Nat.testBit_two_pow_sub_one]

/-- Bits of a union of words. -/
theorem wordBit_or (v w : UInt64) (b : ℕ) : wordBit (v ||| w) b = (wordBit v b || wordBit w b) := by
  rw [wordBit, UInt64.toNat_or, Nat.testBit_or]
  rfl

/-- Bits of an intersection of words. -/
theorem wordBit_and (v w : UInt64) (b : ℕ) :
    wordBit (v &&& w) b = (wordBit v b && wordBit w b) := by
  rw [wordBit, UInt64.toNat_and, Nat.testBit_and]
  rfl

/-- Bits of a complement, within the word. -/
theorem wordBit_not (w : UInt64) {b : ℕ} (h : b < 64) : wordBit (~~~w) b = !wordBit w b := by
  have hnot : (~~~w).toNat = 2 ^ 64 - (w.toNat + 1) := by
    rw [UInt64.toNat_not, UInt64.size]
    omega
  rw [wordBit, hnot, Nat.testBit_two_pow_sub_succ w.toNat_lt, decide_eq_true h, Bool.true_and]
  rfl

/-- Bit `k` of the words set or cleared by the mask of its position. -/
def writeBit (ws : List UInt64) (k : ℕ) (v : Bool) : List UInt64 :=
  ws.modify (k / 64) fun w => if v then w ||| bitMask k else w &&& ~~~bitMask k

/-- Writing a bit keeps the number of words. -/
@[simp] theorem length_writeBit (ws : List UInt64) (k : ℕ) (v : Bool) :
    (writeBit ws k v).length = ws.length := List.length_modify ..

/-- Writing a bit changes that bit only. -/
theorem bitAt_writeBit {ws : List UInt64} {k : ℕ} (h : k / 64 < ws.length) (v : Bool) (i : ℕ) :
    bitAt (writeBit ws k v) i = if i = k then v else bitAt ws i := by
  have hi : i % 64 < 64 := Nat.mod_lt i (by decide)
  have hsame : i = k ↔ k / 64 = i / 64 ∧ k % 64 = i % 64 := by omega
  unfold bitAt writeBit
  rw [List.getD_eq_getElem?_getD, List.getD_eq_getElem?_getD, List.getElem?_modify]
  by_cases hword : k / 64 = i / 64
  · rw [hword] at h
    simp only [hsame, hword, if_true, true_and, List.getElem?_eq_getElem h, Option.map_eq_map,
      Option.map_some, Option.getD_some]
    cases v <;> by_cases hbit : k % 64 = i % 64 <;>
      simp [wordBit_or, wordBit_and, wordBit_not _ hi, wordBit_bitMask, hbit]
  · simp [hsame, hword]

/-- The bits of words each of which is changed by itself. -/
theorem bitAt_mapIdx {ws : List UInt64} (f : ℕ → UInt64 → UInt64) (k : ℕ) :
    bitAt (ws.mapIdx f) k =
      (decide (k / 64 < ws.length) && wordBit (f (k / 64) (ws.getD (k / 64) 0)) (k % 64)) := by
  unfold bitAt
  rw [List.getD_eq_getElem?_getD, List.getElem?_mapIdx]
  by_cases h : k / 64 < ws.length
  · rw [List.getElem?_eq_getElem h, List.getD_eq_getElem _ _ h]
    simp [h]
  · rw [List.getElem?_eq_none (by omega)]
    simp [h]

/-! ## Tests of whole words -/

namespace BitRow

variable {n : ℕ}

/-- The ones of a row are as many as are counted word by word. -/
theorem length_ones (r : BitRow n) : r.ones.length = r.weight := by
  unfold ones weight
  generalize r.words = ws
  suffices h : ∀ k, ((ws.zipIdx k).flatMap fun x =>
      ((List.range 64).filter (wordBit x.1)).map (64 * x.2 + ·)).length =
        ws.foldr (fun w total => (List.range 64).countP (wordBit w) + total) 0 from h 0
  induction ws with
  | nil => exact fun _ => rfl
  | cons w ws ih =>
    intro k
    rw [List.zipIdx_cons, List.flatMap_cons, List.length_append, ih (k + 1), List.foldr_cons,
      List.length_map, ← List.countP_eq_length_filter]

/-- **The weight is the number of ones.** -/
theorem weight_eq (r : BitRow n) : r.weight = (List.range n).countP r.bit := by
  rw [← length_ones, ones_eq, List.countP_eq_length_filter]

/-- **All words are zero if all bits are clear**, since the padding is. -/
theorem isZero_iff (r : BitRow n) : r.isZero = true ↔ ∀ j < n, r.bit j = false := by
  unfold isZero
  rw [List.all_eq_true]
  constructor
  · intro h j _
    have hword : r.words.getD (j / 64) 0 = 0 := by
      rw [List.getD_eq_getElem?_getD]
      cases hget : r.words[j / 64]? with
      | none => rfl
      | some w => exact beq_iff_eq.mp (h w (List.mem_of_getElem? hget))
    rw [bit, bitAt, hword, wordBit_zero]
  · intro h w hw
    have hzero : r = zero n := ext_bit fun j hj => (h j hj).trans (bit_zero j).symm
    rw [hzero] at hw
    exact beq_iff_eq.mpr (List.eq_of_mem_replicate hw)

end BitRow

/-! ## Places of words

With `stride` words in a row, bit `c` of row `r` stands in word `r * stride + c / 64`. -/

section Places

variable {rows stride r c : ℕ}

/-- The row of a word. -/
theorem word_div (r : ℕ) (h : c < 64 * stride) : (r * stride + c / 64) / stride = r := by
  have hword : c / 64 < stride := by omega
  rw [Nat.mul_comm, Nat.mul_add_div (by omega), Nat.div_eq_of_lt hword, Nat.add_zero]

/-- The place of a word in its row. -/
theorem word_mod (r : ℕ) (h : c < 64 * stride) : (r * stride + c / 64) % stride = c / 64 := by
  have hword : c / 64 < stride := by omega
  rw [Nat.mul_comm, Nat.mul_add_mod, Nat.mod_eq_of_lt hword]

/-- A word of a row is one of the list. -/
theorem word_lt (hr : r < rows) (h : c < 64 * stride) : r * stride + c / 64 < rows * stride := by
  have hword : c / 64 < stride := by omega
  calc r * stride + c / 64 < (r + 1) * stride := by
        rw [Nat.add_mul]
        omega
    _ ≤ rows * stride := Nat.mul_le_mul_right _ hr

end Places

/-! ## The words of a matrix -/

/-- Pieces of one length. -/
theorem length_flatMap_of_forall {α β : Type} {f : α → List β} {k : ℕ} {l : List α}
    (h : ∀ a ∈ l, (f a).length = k) : (l.flatMap f).length = l.length * k := by
  rw [List.length_flatMap, List.map_congr_left h, List.map_const', List.sum_replicate, smul_eq_mul]

/-- Pieces of one length: where an element of their concatenation comes from. -/
theorem getElem?_flatMap {α β : Type} {f : α → List β} {k : ℕ} (hk : 0 < k) {l : List α}
    (h : ∀ a ∈ l, (f a).length = k) (i : ℕ) :
    (l.flatMap f)[i]? = l[i / k]?.bind fun a => (f a)[i % k]? := by
  induction l generalizing i with
  | nil => simp
  | cons a l ih =>
    obtain ⟨ha, hl⟩ := List.forall_mem_cons.mp h
    rw [List.flatMap_cons]
    by_cases hi : i < k
    · rw [List.getElem?_append_left (ha.symm ▸ hi), Nat.div_eq_of_lt hi, Nat.mod_eq_of_lt hi]
      rfl
    · have hdiv : i / k = (i - k) / k + 1 := by
        rw [← Nat.add_div_right _ hk, Nat.sub_add_cancel (by omega)]
      have hmod : i % k = (i - k) % k := Nat.mod_eq_sub_mod (by omega)
      rw [List.getElem?_append_right (by omega), ha, ih hl, hdiv, hmod, List.getElem?_cons_succ]

namespace ParityMatrix

/-- The words of a matrix, row after row. -/
def words (M : ParityMatrix) : List UInt64 := M.data.flatMap BitRow.words

/-- A matrix has so many words for every row. -/
theorem length_words (M : ParityMatrix) : M.words.length = M.rows * wordCount M.cols := by
  rw [words, length_flatMap_of_forall fun row _ => row.length_words, M.length_data, storedRows]
  split
  · next hcols => rw [hcols]; rfl
  · rfl

/-- Where bit `c` of row `r` stands among the bits of all words. -/
def position (M : ParityMatrix) (r c : ℕ) : ℕ := 64 * (r * wordCount M.cols) + c

/-- The word of a position. -/
theorem position_div (M : ParityMatrix) (r c : ℕ) :
    M.position r c / 64 = r * wordCount M.cols + c / 64 := by
  unfold position
  omega

/-- The bit of a position. -/
theorem position_mod (M : ParityMatrix) (r c : ℕ) : M.position r c % 64 = c % 64 := by
  unfold position
  omega

/-- The words of a row hold its columns. -/
theorem lt_of_lt_cols {M : ParityMatrix} {c : ℕ} (h : c < M.cols) : c < 64 * wordCount M.cols := by
  unfold wordCount
  omega

/-- Different places of the matrix have different positions. -/
theorem position_eq_iff {M : ParityMatrix} {c j : ℕ} (hc : c < 64 * wordCount M.cols)
    (hj : j < 64 * wordCount M.cols) (r i : ℕ) :
    M.position i j = M.position r c ↔ i = r ∧ j = c := by
  constructor
  · intro h
    have hdiv := M.position_div r c ▸ M.position_div i j ▸ congrArg (· / 64) h
    have hrow : i = r := by rw [← word_div i hj, ← word_div r hc, hdiv]
    subst hrow
    exact ⟨rfl, Nat.add_left_cancel h⟩
  · rintro ⟨rfl, rfl⟩
    rfl

/-- **The bits of the words are the entries**, the clear ones past the last column included. -/
theorem bitAt_position (M : ParityMatrix) {r c : ℕ} (h : c < 64 * wordCount M.cols) :
    bitAt M.words (M.position r c) = M.entry r c := by
  have hrow : ∀ row ∈ M.data, row.words.length = wordCount M.cols := fun row _ => row.length_words
  rw [bitAt, position_div, position_mod, List.getD_eq_getElem?_getD, words,
    getElem?_flatMap (by omega) hrow, word_div r h, word_mod r h, entry]
  cases M.data[r]? with
  | none => exact wordBit_zero _
  | some row =>
    change wordBit (row.words[c / 64]?.getD 0) (c % 64) = bitAt row.words c
    rw [bitAt, List.getD_eq_getElem?_getD]

/-- Words that have the bits of a matrix at every position are its words. -/
theorem eq_words {M : ParityMatrix} {ws : List UInt64}
    (hlen : ws.length = M.rows * wordCount M.cols)
    (h : ∀ r < M.rows, ∀ c < 64 * wordCount M.cols, bitAt ws (M.position r c) = M.entry r c) :
    ws = M.words := by
  refine words_ext (hlen.trans M.length_words.symm) fun k => ?_
  by_cases hk : k / 64 < M.rows * wordCount M.cols
  · have hstride : 0 < wordCount M.cols := Nat.pos_of_lt_mul_left hk
    -- The row and the column of bit `k`.
    obtain ⟨r, c, hr, hc, rfl⟩ : ∃ r c, r < M.rows ∧ c < 64 * wordCount M.cols ∧
        M.position r c = k := by
      refine ⟨k / (64 * wordCount M.cols), k % (64 * wordCount M.cols), ?_,
        Nat.mod_lt _ (by omega), ?_⟩
      · rw [← Nat.div_div_eq_div_mul]
        exact Nat.div_lt_of_lt_mul (Nat.mul_comm M.rows _ ▸ hk)
      · rw [position, Nat.mul_comm (k / _), ← Nat.mul_assoc, Nat.div_add_mod]
    rw [h r hr c hc, bitAt_position M hc]
  · rw [bitAt, bitAt, List.getD_eq_default _ _ (by omega),
      List.getD_eq_default _ _ (by rw [length_words]; omega)]

/-- The words `ws` hold the matrix: bit `c` of row `r` stands in word `r * wordCount cols + c / 64`
at position `c % 64`, and what stands past the last column is clear. -/
structure Packs (ws : List UInt64) (M : ParityMatrix) : Prop where
  length_eq : ws.length = M.rows * wordCount M.cols
  bit_eq : ∀ r < M.rows, ∀ c < M.cols,
    wordBit (ws.getD (r * wordCount M.cols + c / 64) 0) (c % 64) = M.entry r c
  padding : ∀ r < M.rows, ∀ c, M.cols ≤ c → c < 64 * wordCount M.cols →
    wordBit (ws.getD (r * wordCount M.cols + c / 64) 0) (c % 64) = false

/-- A bit of a word is an entry. -/
theorem wordBit_words (M : ParityMatrix) {c : ℕ} (r : ℕ) (h : c < 64 * wordCount M.cols) :
    wordBit (M.words.getD (r * wordCount M.cols + c / 64) 0) (c % 64) = M.entry r c := by
  rw [← bitAt_position M h, bitAt, position_div, position_mod]

/-- **One list of words holds a matrix**: its words. -/
theorem packs_iff {ws : List UInt64} {M : ParityMatrix} : Packs ws M ↔ ws = M.words := by
  constructor
  · rintro ⟨hlen, hbit, hpad⟩
    refine eq_words hlen fun r hr c hc => ?_
    rw [bitAt, position_div, position_mod]
    by_cases hcols : c < M.cols
    · exact hbit r hr c hcols
    · rw [hpad r hr c (by omega) hc, entry_eq_false (by omega)]
  · rintro rfl
    exact ⟨M.length_words, fun r _ c hc => M.wordBit_words r (lt_of_lt_cols hc),
      fun r _ c hcols hc => (M.wordBit_words r hc).trans (entry_eq_false (by omega))⟩

/-- **Matrices are equal if their shapes and words are**, since the words have all entries. -/
theorem eq_iff_words {M N : ParityMatrix} :
    M = N ↔ M.rows = N.rows ∧ M.cols = N.cols ∧ M.words = N.words := by
  constructor
  · rintro rfl
    exact ⟨rfl, rfl, rfl⟩
  · rintro ⟨hrows, hcols, hwords⟩
    refine ext_entry hrows hcols fun r c _ hc => ?_
    rw [← bitAt_position M (lt_of_lt_cols hc), ← bitAt_position N (lt_of_lt_cols (hcols ▸ hc)),
      hwords, position, position, hcols]

/-! ## Operations on the words -/

/-- **Writing an entry** sets or clears one bit of one word. -/
theorem words_setEntry {M : ParityMatrix} {r c : ℕ} (hr : r < M.rows) (hc : c < M.cols) (v : Bool) :
    (M.setEntry r c v).words = writeBit M.words (M.position r c) v := by
  have hwide := lt_of_lt_cols hc
  have hlt : M.position r c / 64 < M.words.length := by
    rw [position_div, length_words]
    exact word_lt hr hwide
  refine (eq_words ?_ fun i _ j hj => ?_).symm
  · rw [length_writeBit, length_words]
    rfl
  · change bitAt _ (M.position i j) = _
    rw [bitAt_writeBit hlt, entry_setEntry, bitAt_position M hj]
    simp only [position_eq_iff hwide hj, hr, hc, and_true]

/-- Words each of which is changed by itself hold a matrix if their bits are its entries. -/
theorem mapIdx_eq_words {M : ParityMatrix} {ws : List UInt64} {f : ℕ → UInt64 → UInt64}
    (hlen : ws.length = M.rows * wordCount M.cols)
    (h : ∀ r < M.rows, ∀ c < 64 * wordCount M.cols,
      wordBit (f (r * wordCount M.cols + c / 64) (ws.getD (r * wordCount M.cols + c / 64) 0))
        (c % 64) = M.entry r c) : ws.mapIdx f = M.words := by
  refine eq_words (List.length_mapIdx.trans hlen) fun r hr c hc => ?_
  rw [bitAt_mapIdx, position_div, position_mod, hlen, decide_eq_true (word_lt hr hc),
    Bool.true_and, h r hr c hc]

/-- **Adding a row** adds its words into the words of the other. -/
theorem words_addRow {M : ParityMatrix} {t : ℕ} (ht : t < M.rows) (s : ℕ) :
    (M.addRow t s).words = M.words.mapIdx fun i w =>
      if i / wordCount M.cols = t
      then w ^^^ M.words.getD (s * wordCount M.cols + i % wordCount M.cols) 0 else w := by
  symm
  refine mapIdx_eq_words M.length_words fun r _ c hc => ?_
  rw [cols_addRow] at hc ⊢
  rw [word_div r hc, word_mod r hc, entry_addRow]
  by_cases h : r = t
  · rw [if_pos h, if_pos ⟨h, ht⟩, wordBit_xor, M.wordBit_words r hc, M.wordBit_words s hc, h]
  · rw [if_neg h, if_neg (fun h' => h h'.1), M.wordBit_words r hc]

/-- **Adding a column** flips one bit in every row that has a one in the column. -/
theorem words_addCol {M : ParityMatrix} {t : ℕ} (ht : t < M.cols) (s : ℕ) :
    (M.addCol t s).words = M.words.mapIdx fun i w =>
      if i % wordCount M.cols = t / 64 ∧ M.entry (i / wordCount M.cols) s = true
      then w ^^^ bitMask t else w := by
  symm
  refine mapIdx_eq_words M.length_words fun r _ c hc => ?_
  rw [cols_addCol] at hc ⊢
  rw [word_div r hc, word_mod r hc, entry_addCol]
  have hsame : c = t ↔ c / 64 = t / 64 ∧ t % 64 = c % 64 := by omega
  -- The mask flips one bit of its word, so the other columns of the word stay as they are.
  by_cases h : c / 64 = t / 64 ∧ M.entry r s = true
  · rw [if_pos h, wordBit_xor, M.wordBit_words r hc, wordBit_bitMask]
    by_cases hct : t % 64 = c % 64
    · obtain rfl : c = t := hsame.mpr ⟨h.1, hct⟩
      simp [h.2, ht]
    · simp [hsame, hct]
  · rw [if_neg h, M.wordBit_words r hc]
    by_cases hct : c = t
    · have hs : M.entry r s = false := by grind
      simp [hct, hs]
    · simp [hct]

/-- The parity of a number, modulo two. -/
theorem bitValue_decide_odd (n : ℕ) : bitValue (decide (Odd n)) = n := by
  by_cases h : Odd n
  · rw [decide_eq_true h, bitValue_true, ZMod.natCast_eq_one_iff_odd.mpr h]
  · rw [decide_eq_false h, bitValue_false,
      ZMod.natCast_eq_zero_iff_even.mpr (Nat.not_odd_iff_even.mp h)]

/-- The bit of a sum of words is the parity of their bits. -/
theorem wordBit_foldl_xor (f : ℕ → UInt64) (ks : List ℕ) (b : ℕ) :
    wordBit (ks.foldl (fun w k => w ^^^ f k) 0) b =
      decide (Odd (ks.countP fun k => wordBit (f k) b)) := by
  apply bitValue_injective
  rw [bitValue_decide_odd]
  induction ks using List.reverseRecOn with
  | nil => rw [List.foldl_nil, wordBit_zero]; rfl
  | append_singleton ks k ih =>
    rw [List.foldl_append, List.countP_append, List.foldl_cons, List.foldl_nil, wordBit_xor,
      bitValue_bne, ih, List.countP_singleton, Nat.cast_add]
    cases wordBit (f k) b <;> rfl

/-- **Entries of a product** are the parities of the numbers of common ones. -/
theorem entry_mul (M N : ParityMatrix) (r c : ℕ) :
    (M.mul N).entry r c =
      decide (Odd ((List.range M.cols).countP fun k => M.entry r k && N.entry k c)) := by
  apply bitValue_injective
  rw [bitValue_entry_mul, bitValue_decide_odd]
  generalize M.cols = n
  induction n with
  | zero => rfl
  | succ n ih =>
    rw [Finset.sum_range_succ, ih, List.range_succ, List.countP_append, List.countP_singleton,
      Nat.cast_add]
    cases M.entry r n <;> cases N.entry n c <;> simp

/-- **Multiplying** adds, into clear words, the words of the rows that the ones of a row name. -/
theorem words_mul (M N : ParityMatrix) :
    (M.mul N).words = (List.replicate (M.rows * wordCount N.cols) 0).mapIdx fun i w =>
      ((List.range M.cols).filter (M.entry (i / wordCount N.cols))).foldl
        (fun w k => w ^^^ N.words.getD (k * wordCount N.cols + i % wordCount N.cols) 0) w := by
  symm
  refine mapIdx_eq_words List.length_replicate fun r hr c hc => ?_
  rw [rows_mul] at hr
  rw [cols_mul] at hc ⊢
  rw [List.getD_replicate _ (word_lt hr hc), wordBit_foldl_xor, List.countP_filter, word_div r hc,
    word_mod r hc, entry_mul]
  congr 3
  funext k
  rw [N.wordBit_words k hc, Bool.and_comm]

/-- The positions of the ones, in reading order. -/
def onePositions (M : ParityMatrix) : List ℕ :=
  (List.range M.rows).flatMap fun r => ((List.range M.cols).filter (M.entry r)).map (M.position r)

/-- The positions of the ones. -/
theorem mem_onePositions {M : ParityMatrix} {k : ℕ} :
    k ∈ M.onePositions ↔ ∃ r < M.rows, ∃ c < M.cols, M.entry r c = true ∧ M.position r c = k := by
  simp only [onePositions, List.mem_flatMap, List.mem_range, List.mem_map, List.mem_filter,
    and_assoc]

/-- Writing bits keeps the number of words. -/
theorem length_foldl_writeBit (ks : List ℕ) (ws : List UInt64) :
    (ks.foldl (fun ws k => writeBit ws k true) ws).length = ws.length := by
  induction ks generalizing ws with
  | nil => rfl
  | cons k ks ih => rw [List.foldl_cons, ih, length_writeBit]

/-- Setting bits one after the other. -/
theorem bitAt_foldl_writeBit {ks : List ℕ} {ws : List UInt64} (h : ∀ k ∈ ks, k / 64 < ws.length)
    (i : ℕ) :
    bitAt (ks.foldl (fun ws k => writeBit ws k true) ws) i = (decide (i ∈ ks) || bitAt ws i) := by
  induction ks generalizing ws with
  | nil => simp
  | cons k ks ih =>
    obtain ⟨hk, hks⟩ := List.forall_mem_cons.mp h
    rw [List.foldl_cons, ih (by rwa [length_writeBit]), bitAt_writeBit hk]
    by_cases hik : i = k <;> simp [hik]

/-- **Every matrix is written one by one** into clear words. -/
theorem words_eq_foldl (M : ParityMatrix) :
    M.words = M.onePositions.foldl (fun ws k => writeBit ws k true)
      (List.replicate (M.rows * wordCount M.cols) 0) := by
  refine (eq_words ?_ fun r _ c hc => ?_).symm
  · rw [length_foldl_writeBit, List.length_replicate]
  · rw [bitAt_foldl_writeBit, bitAt_replicate_zero, Bool.or_false]
    · by_cases hone : M.entry r c = true
      · have hlt := lt_of_entry hone
        rw [hone, decide_eq_true (mem_onePositions.mpr ⟨r, hlt.1, c, hlt.2, hone, rfl⟩)]
      · rw [Bool.eq_false_of_not_eq_true hone, decide_eq_false_iff_not, mem_onePositions]
        rintro ⟨i, -, j, hj, hij, hpos⟩
        obtain ⟨rfl, rfl⟩ := (position_eq_iff hc (lt_of_lt_cols hj) r i).mp hpos
        exact hone hij
    · intro k hk
      obtain ⟨i, hi, j, hj, -, rfl⟩ := mem_onePositions.mp hk
      rw [position_div, List.length_replicate]
      exact word_lt hi (lt_of_lt_cols hj)

end ParityMatrix

/-! ## Drawn words -/

namespace Draw

variable {α : Type}

/-- Draws in two parts. -/
theorem times_add (d : Draw α) (m n : ℕ) :
    Draw.times d (m + n) = do return (← Draw.times d m) ++ (← Draw.times d n) := by
  induction m with
  | zero => simp [Draw.times]
  | succ m ih => rw [Nat.succ_add]; simp [Draw.times, ih]

/-- Drawing rows of words is drawing their words one after the other. -/
theorem times_times (d : Draw α) (k n : ℕ) :
    List.flatten <$> Draw.times (Draw.times d k) n = Draw.times d (n * k) := by
  induction n with
  | zero => simp [Draw.times]
  | succ n ih =>
    rw [Nat.succ_mul, Nat.add_comm (n * k), times_add d k, ← ih]
    simp [Draw.times]

end Draw

namespace ParityMatrix

/-- What is kept of the word at place `i`: in the last word of a row, the bits of columns. -/
def maskTail (cols i : ℕ) (w : UInt64) : UInt64 :=
  if i % wordCount cols + 1 = wordCount cols ∧ cols % 64 ≠ 0 then w &&& (bitMask cols - 1) else w

/-- Masking keeps the bits of columns and clears the others. -/
theorem wordBit_maskTail {cols c : ℕ} (h : c < 64 * wordCount cols) (r : ℕ) (w : UInt64) :
    wordBit (maskTail cols (r * wordCount cols + c / 64) w) (c % 64) =
      (decide (c < cols) && wordBit w (c % 64)) := by
  have hstride : wordCount cols = (cols + 63) / 64 := rfl
  rw [maskTail, word_mod r h]
  by_cases hlast : c / 64 + 1 = wordCount cols ∧ cols % 64 ≠ 0
  · have hlt : c % 64 < cols % 64 ↔ c < cols := by omega
    rw [if_pos hlast, wordBit_and, wordBit_bitMask_sub_one, Bool.and_comm]
    simp only [hlt]
  · have hlt : c < cols := by omega
    rw [if_neg hlast, decide_eq_true hlt, Bool.true_and]

/-- Rows of as many words as are needed, cut off at the last column. -/
theorem words_ofBitRows {cols : ℕ} {wss : List (List UInt64)}
    (h : ∀ ws ∈ wss, ws.length = wordCount cols) :
    (ofBitRows (wss.map fun ws => BitRow.ofFn cols (bitAt ws))).words =
      wss.flatten.mapIdx (maskTail cols) := by
  have hlength : (wss.flatMap id).length = wss.length * wordCount cols := length_flatMap_of_forall h
  rw [← List.flatMap_id]
  refine (mapIdx_eq_words ?_ fun r hr c hc => ?_).symm
  · rw [hlength, rows_ofBitRows, List.length_map, cols_ofBitRows]
  · rw [rows_ofBitRows, List.length_map] at hr
    rw [cols_ofBitRows] at hc ⊢
    have hplace := getElem?_flatMap (f := id) (by omega : 0 < wordCount cols) h
      (r * wordCount cols + c / 64)
    rw [word_div r hc, word_mod r hc] at hplace
    rw [wordBit_maskTail hc, entry_ofBitRows, List.getElem?_map, List.getElem?_eq_getElem hr,
      Option.map_some, Option.getD_some, BitRow.bit_ofFn, bitAt, List.getD_eq_getElem?_getD, hplace,
      List.getElem?_eq_getElem hr, List.getD_eq_getElem?_getD]
    rfl

/-- **Drawing a matrix** draws its words one after the other and masks the last one of each row. -/
theorem words_random (rows cols : ℕ) (g : Generator) :
    ∃ M : ParityMatrix, M.rows = rows ∧ M.cols = cols ∧
      M.words = (Draw.times Draw.word64 (rows * wordCount cols) g).1.mapIdx (maskTail cols) ∧
      ParityMatrix.random rows cols g =
        (M, (Draw.times Draw.word64 (rows * wordCount cols) g).2) := by
  by_cases hcols : cols = 0
  · have hnone : rows * wordCount cols = 0 := by rw [hcols]; rfl
    have hwords : (zeros rows cols).words = [] :=
      List.eq_nil_of_length_eq_zero ((length_words _).trans hnone)
    refine ⟨zeros rows cols, rfl, rfl, by rw [hnone, hwords]; rfl, ?_⟩
    rw [hnone, ParityMatrix.random, if_pos hcols, hcols]
    rfl
  · rw [← Draw.times_times]
    refine ⟨ofBitRows ((Draw.times (Draw.times Draw.word64 (wordCount cols)) rows g).1.map
      fun ws => BitRow.ofFn cols (bitAt ws)), ?_, rfl, ?_, ?_⟩
    · rw [rows_ofBitRows, List.length_map]
      exact Draw.always_times_length _ rows g
    · exact words_ofBitRows
        (Draw.always_times (Draw.always_times_length Draw.word64 (wordCount cols)) rows g)
    · unfold ParityMatrix.random
      rw [if_neg hcols]
      rfl

/-! ## Words and entries -/

/-- A matrix of the given shape with the given entries. -/
structure HasEntries (M : ParityMatrix) (rows cols : ℕ) (f : ℕ → ℕ → Bool) : Prop where
  rows_eq : M.rows = rows
  cols_eq : M.cols = cols
  entry_eq : ∀ r < rows, ∀ c < cols, M.entry r c = f r c

/-- A matrix is known from its shape and its entries. -/
theorem hasEntries_iff {M N : ParityMatrix} : N.HasEntries M.rows M.cols M.entry ↔ M = N := by
  constructor
  · rintro ⟨hrows, hcols, h⟩
    exact ext_entry hrows.symm hcols.symm fun r c hr hc => (h r hr c hc).symm
  · rintro rfl
    exact ⟨rfl, rfl, fun _ _ _ _ => rfl⟩

/-- The test for the identity, entry by entry. -/
theorem isIdentity_iff_hasEntries {M : ParityMatrix} :
    M.isIdentity = true ↔ M.HasEntries M.rows M.rows fun r c => r == c := by
  rw [isIdentity, Bool.and_eq_true, isSquare, beq_iff_eq, beq_iff_eq]
  constructor
  · rintro ⟨hsquare, h⟩
    refine ⟨rfl, hsquare.symm, fun r hr c _ => ?_⟩
    rw [h, entry_identity, decide_eq_true hr, Bool.true_and]
  · rintro ⟨-, hsquare, h⟩
    refine ⟨hsquare.symm, ext_entry rfl hsquare fun r c hr hc => ?_⟩
    rw [h r hr c (hsquare ▸ hc), entry_identity, decide_eq_true hr, Bool.true_and]

/-- The test for an upper triangle, entry by entry. -/
theorem isUpperTriangular_iff_entry {M : ParityMatrix} :
    M.isUpperTriangular = true ↔ ∀ r < M.rows, ∀ c < M.cols, c < r → M.entry r c = false := by
  rw [isUpperTriangular_iff]
  constructor
  · intro h r _ c _ hlt
    by_contra hone
    have hle := h r c (Bool.eq_true_of_not_eq_false hone)
    omega
  · intro h r c hone
    by_contra hlt
    have hin := lt_of_entry hone
    rw [h r hin.1 c hin.2 (by omega)] at hone
    exact Bool.false_ne_true hone

section Rows

variable {M : ParityMatrix} {r : ℕ}

/-- A row of the matrix can be looked at. -/
theorem packedRow?_of_lt (h : r < M.rows) : M.packedRow? r = .ok (M.rowAt r) := if_pos (.inl h)

/-- The bits of a row are its entries. -/
theorem bit_rowAt_eq (M : ParityMatrix) (r : ℕ) : (M.rowAt r).bit = M.entry r :=
  funext (M.bit_rowAt r)

/-- The ones of a row are listed. -/
theorem rowOnes?_of_lt (h : r < M.rows) :
    M.rowOnes? r = .ok ((List.range M.cols).filter (M.entry r)) := by
  rw [rowOnes?, packedRow?_of_lt h, ← bit_rowAt_eq, ← BitRow.ones_eq]
  rfl

/-- The ones of a row are counted. -/
theorem rowWeight?_of_lt (h : r < M.rows) :
    M.rowWeight? r = .ok ((List.range M.cols).countP (M.entry r)) := by
  rw [rowWeight?, packedRow?_of_lt h, ← bit_rowAt_eq, ← BitRow.weight_eq]
  rfl

/-- A row is tested for ones. -/
theorem rowIsZero?_of_lt (h : r < M.rows) :
    M.rowIsZero? r = .ok (decide (∀ c < M.cols, M.entry r c = false)) := by
  have hzero : (M.rowAt r).isZero = decide (∀ c < M.cols, M.entry r c = false) := by
    rw [Bool.eq_iff_iff, BitRow.isZero_iff, decide_eq_true_iff, bit_rowAt_eq]
  rw [rowIsZero?, packedRow?_of_lt h, ← hzero]
  rfl

end Rows

/-- **A matrix packed in words**, and what its operations do to words and entries. -/
structure FaithfullyPacked (M : ParityMatrix) : Prop where
  /-- The words of a matrix are the only ones that hold it, the unused bits included. -/
  packs_iff : ∀ ws, Packs ws M ↔ ws = M.words
  /-- They arise from clear words by writing the ones. -/
  words_eq : M.words = M.onePositions.foldl (fun ws k => writeBit ws k true)
    (List.replicate (M.rows * wordCount M.cols) 0)
  /-- Comparing words is comparing entries. -/
  beq_iff_entries : ∀ N, (M == N) = true ↔ N.HasEntries M.rows M.cols M.entry
  beq_iff_words : ∀ N, (M == N) = true ↔ M.rows = N.rows ∧ M.cols = N.cols ∧ M.words = N.words
  /-- Tests of whole words are tests of entries. -/
  rowOnes_eq : ∀ r < M.rows, M.rowOnes? r = .ok ((List.range M.cols).filter (M.entry r))
  rowWeight_eq : ∀ r < M.rows, M.rowWeight? r = .ok ((List.range M.cols).countP (M.entry r))
  rowIsZero_eq : ∀ r < M.rows,
    M.rowIsZero? r = .ok (decide (∀ c < M.cols, M.entry r c = false))
  isIdentity_iff : M.isIdentity = true ↔ M.HasEntries M.rows M.rows fun r c => r == c
  isUpperTriangular_iff : M.isUpperTriangular = true ↔
    ∀ r < M.rows, ∀ c < M.cols, c < r → M.entry r c = false
  /-- Writing an entry sets or clears its bit. -/
  setEntry_eq : ∀ r < M.rows, ∀ c < M.cols, ∀ v, ∃ N, M.setEntry? r c v = .ok N ∧
    (N.HasEntries M.rows M.cols fun i j => if i = r ∧ j = c then v else M.entry i j) ∧
    N.words = writeBit M.words (M.position r c) v
  /-- Adding a row adds its words. -/
  addRow_eq : ∀ t < M.rows, ∀ s < M.rows, t ≠ s → ∃ N, M.addRow? t s = .ok N ∧
    (N.HasEntries M.rows M.cols fun i j =>
      if i = t then M.entry t j != M.entry s j else M.entry i j) ∧
    N.words = M.words.mapIdx fun i w =>
      if i / wordCount M.cols = t
      then w ^^^ M.words.getD (s * wordCount M.cols + i % wordCount M.cols) 0 else w
  /-- Adding a column flips its bit in the rows with a one of the other. -/
  addCol_eq : ∀ t < M.cols, ∀ s < M.cols, t ≠ s → ∃ N, M.addCol? t s = .ok N ∧
    (N.HasEntries M.rows M.cols fun i j =>
      if j = t then M.entry i t != M.entry i s else M.entry i j) ∧
    N.words = M.words.mapIdx fun i w =>
      if i % wordCount M.cols = t / 64 ∧ M.entry (i / wordCount M.cols) s = true
      then w ^^^ bitMask t else w
  /-- A product adds up words of the second matrix. -/
  mul_eq : ∀ N, M.cols = N.rows → ∃ P,
    M.mul? N = ((requireShape M.rows N.cols).map fun _ => P).mapError .broken ∧
    (P.HasEntries M.rows N.cols fun i j =>
      decide (Odd ((List.range M.cols).countP fun k => M.entry i k && N.entry k j))) ∧
    P.words = (List.replicate (M.rows * wordCount N.cols) 0).mapIdx fun i w =>
      ((List.range M.cols).filter (M.entry (i / wordCount N.cols))).foldl
        (fun w k => w ^^^ N.words.getD (k * wordCount N.cols + i % wordCount N.cols) 0) w
  /-- Drawn words are masked. -/
  random_eq : ∀ rows cols g, ∃ N : ParityMatrix, N.rows = rows ∧ N.cols = cols ∧
    N.words = (Draw.times Draw.word64 (rows * wordCount cols) g).1.mapIdx (maskTail cols) ∧
    ParityMatrix.random rows cols g =
      (N, (Draw.times Draw.word64 (rows * wordCount cols) g).2)

/-- **Every matrix is faithfully packed**, for every number of columns. -/
theorem packed_specification (M : ParityMatrix) : M.FaithfullyPacked where
  packs_iff := fun ws => ParityMatrix.packs_iff
  words_eq := M.words_eq_foldl
  beq_iff_entries := by
    intro N
    rw [beq_iff_eq, hasEntries_iff]
  beq_iff_words := by
    intro N
    rw [beq_iff_eq, eq_iff_words]
  rowOnes_eq := fun r hr => rowOnes?_of_lt hr
  rowWeight_eq := fun r hr => rowWeight?_of_lt hr
  rowIsZero_eq := fun r hr => rowIsZero?_of_lt hr
  isIdentity_iff := isIdentity_iff_hasEntries
  isUpperTriangular_iff := isUpperTriangular_iff_entry
  setEntry_eq := by
    intro r hr c hc v
    refine ⟨M.setEntry r c v, if_pos ⟨hr, hc⟩, ⟨rfl, rfl, fun i _ j _ => ?_⟩,
      words_setEntry hr hc v⟩
    simp only [entry_setEntry, hr, hc, and_true]
  addRow_eq := by
    intro t ht s hs hne
    refine ⟨M.addRow t s, @addRow?_of_isProper M ⟨t, s⟩ ⟨ht, hs, hne⟩,
      ⟨rfl, rfl, fun i _ j _ => ?_⟩, words_addRow ht s⟩
    simp only [entry_addRow, ht, and_true]
  addCol_eq := by
    intro t ht s hs hne
    refine ⟨M.addCol t s, @addCol?_of_isProper M ⟨t, s⟩ ⟨ht, hs, hne⟩,
      ⟨rfl, rfl, fun i _ j _ => ?_⟩, words_addCol ht s⟩
    simp only [entry_addCol, ht, and_true]
  mul_eq := fun N hfit =>
    ⟨M.mul N, if_pos hfit, ⟨rfl, rfl, fun i _ j _ => entry_mul M N i j⟩, words_mul M N⟩
  random_eq := words_random

/-- A bit in the second word of the second row. -/
theorem packed_specification_two_words :
    ∃ N, setEntry? (zeros 2 65) 1 64 true = .ok N ∧ N.words = [0, 0, 0, 1] := by
  obtain ⟨N, hN, -, hwords⟩ :=
    (packed_specification (zeros 2 65)).setEntry_eq 1 (by decide) 64 (by decide) true
  exact ⟨N, hN, hwords.trans (by decide)⟩

end ParityMatrix

end CnotSynthesis
