/-! # Rows of bits packed into words

A row of `n` bits is kept in `wordCount n` words of 64 bits, bit `j` in word `j / 64` at position
`j % 64`. The positions past the last bit are clear, so two rows are equal exactly when their bits
are, and whole-word tests (is the row zero, how many ones) need no masks.

* **`bitAt words j`** — bit `j` of a list of words; `false` past the last word.
* **`BitRow n`** — the words of one row, with the two facts above as fields.
* **`BitRow.ofFn`**, **`BitRow.add`**, **`BitRow.set`** — each with its `bit_` law.
* **`BitRow.ones`**, **`BitRow.weight`**, **`BitRow.isZero`** — computed word by word. -/

namespace CnotSynthesis

/-! ## Words -/

/-- Number of words that hold `n` bits. -/
def wordCount (n : Nat) : Nat := (n + 63) / 64

/-- The number whose bit `b` is `f b` for every `b < k`. -/
def packBits (f : Nat → Bool) : Nat → Nat
  | 0 => 0
  | k + 1 => packBits f k ||| (if f k then 1 <<< k else 0)

/-- The word whose bit `b` is `f b` for every `b < k`, and clear from there on. -/
def packWord (f : Nat → Bool) (k : Nat) : UInt64 := UInt64.ofNat (packBits f k)

/-- Bit `b` of a word. -/
def wordBit (w : UInt64) (b : Nat) : Bool := w.toNat.testBit b

/-- Bit `j` of a list of words, `false` past the last word. -/
def bitAt (words : List UInt64) (j : Nat) : Bool := wordBit (words.getD (j / 64) 0) (j % 64)

/-- Bit `i` of `packBits f k` is `f i` below `k` and clear from there on. -/
theorem testBit_packBits (f : Nat → Bool) (k i : Nat) :
    (packBits f k).testBit i = (decide (i < k) && f i) := by
  induction k with
  | zero => simp [packBits]
  | succ k ih =>
    rw [packBits, Nat.testBit_or, ih]
    by_cases hk : f k = true
    · rw [if_pos hk, Nat.one_shiftLeft, Nat.testBit_two_pow]
      by_cases hi : k = i
      · subst hi; simp [hk]
      · have : (i < k + 1) ↔ i < k := by omega
        simp [hi, this]
    · rw [if_neg hk]
      by_cases hi : k = i
      · subst hi; simp [hk]
      · have : (i < k + 1) ↔ i < k := by omega
        simp [this]

/-- A word has 64 bits. -/
theorem wordBit_eq_false {w : UInt64} {b : Nat} (h : 64 ≤ b) : wordBit w b = false := by
  apply Nat.testBit_lt_two_pow
  exact Nat.lt_of_lt_of_le w.toNat_lt (Nat.pow_le_pow_right (by decide) h)

/-- No bit is set in zero. -/
@[simp] theorem wordBit_zero (b : Nat) : wordBit 0 b = false := by
  simp [wordBit]

/-- The bits of a packed word. -/
theorem wordBit_packWord (f : Nat → Bool) {k b : Nat} (h : b < 64) :
    wordBit (packWord f k) b = (decide (b < k) && f b) := by
  unfold wordBit packWord
  rw [UInt64.toNat_ofNat', Nat.testBit_mod_two_pow, testBit_packBits]
  simp [h]

/-- Bits of a sum of words. -/
theorem wordBit_xor (v w : UInt64) (b : Nat) :
    wordBit (v ^^^ w) b = (wordBit v b != wordBit w b) := by
  unfold wordBit
  rw [UInt64.toNat_xor, Nat.testBit_xor]

/-- Words with the same bits are equal. -/
theorem word_ext {v w : UInt64} (h : ∀ b, b < 64 → wordBit v b = wordBit w b) : v = w := by
  apply UInt64.toNat_inj.mp
  apply Nat.eq_of_testBit_eq
  intro b
  by_cases hb : b < 64
  · exact h b hb
  · have h64 : 64 ≤ b := by omega
    exact (wordBit_eq_false (w := v) h64).trans (wordBit_eq_false (w := w) h64).symm

/-! ## Bits of a list of words -/

/-- The words of the bits `f 0, …, f (n - 1)`. -/
def packWords (n : Nat) (f : Nat → Bool) : List UInt64 :=
  (List.range (wordCount n)).map fun i =>
    packWord (fun b => f (64 * i + b)) (min 64 (n - 64 * i))

/-- The packed words have the packed bits, and no others. -/
theorem bitAt_packWords (n : Nat) (f : Nat → Bool) (j : Nat) :
    bitAt (packWords n f) j = (decide (j < n) && f j) := by
  unfold bitAt packWords
  have hj : 64 * (j / 64) + j % 64 = j := Nat.div_add_mod j 64
  have hm : j % 64 < 64 := Nat.mod_lt _ (by decide)
  by_cases h : j / 64 < wordCount n
  · have hlt : j % 64 < min 64 (n - 64 * (j / 64)) ↔ j < n := by omega
    rw [List.getD_eq_getElem?_getD, List.getElem?_map, List.getElem?_range h]
    simp only [Option.map_some, Option.getD_some]
    rw [wordBit_packWord _ hm, hj]
    simp only [hlt]
  · have hge : ¬ j < n := by
      unfold wordCount at h
      omega
    rw [List.getD_eq_getElem?_getD, List.getElem?_map,
      List.getElem?_eq_none (by simp; omega)]
    simp [hge]

/-- Words that are all zero have no bits. -/
theorem bitAt_replicate_zero (k j : Nat) : bitAt (List.replicate k 0) j = false := by
  unfold bitAt
  rw [List.getD_eq_getElem?_getD, List.getElem?_replicate]
  by_cases h : j / 64 < k <;> simp [h]

/-- Adding two lists of words of one length adds their bits. -/
theorem bitAt_zipWith_xor {v w : List UInt64} (h : v.length = w.length) (j : Nat) :
    bitAt (List.zipWith (· ^^^ ·) v w) j = (bitAt v j != bitAt w j) := by
  unfold bitAt
  rw [List.getD_eq_getElem?_getD, List.getD_eq_getElem?_getD, List.getD_eq_getElem?_getD,
    List.getElem?_zipWith]
  by_cases hj : j / 64 < v.length
  · rw [List.getElem?_eq_getElem hj, List.getElem?_eq_getElem (h ▸ hj)]
    exact wordBit_xor _ _ _
  · rw [List.getElem?_eq_none (by omega), List.getElem?_eq_none (by omega)]
    simp

/-- Lists of words of one length with the same bits are equal. -/
theorem words_ext {v w : List UInt64} (hlen : v.length = w.length)
    (h : ∀ j, bitAt v j = bitAt w j) : v = w := by
  apply List.ext_getElem hlen
  intro i hv hw
  apply word_ext
  intro b hb
  have hdiv : (64 * i + b) / 64 = i := by omega
  have hmod : (64 * i + b) % 64 = b := by omega
  have := h (64 * i + b)
  unfold bitAt at this
  rw [hdiv, hmod, List.getD_eq_getElem?_getD, List.getD_eq_getElem?_getD,
    List.getElem?_eq_getElem hv, List.getElem?_eq_getElem hw] at this
  exact this

/-! ## Rows -/

/-- A row of `width` bits: exactly as many words as are needed, and no bit set past the width. -/
structure BitRow (width : Nat) where
  /-- The packed words, lowest bits first. -/
  words : List UInt64
  length_words : words.length = wordCount width
  padding : ∀ j, width ≤ j → bitAt words j = false
deriving DecidableEq

namespace BitRow

variable {n : Nat}

/-- Bit `j` of the row; positions past the width read as clear. -/
def bit (r : BitRow n) (j : Nat) : Bool := bitAt r.words j

/-- The row whose bit `j` is `f j`. -/
def ofFn (n : Nat) (f : Nat → Bool) : BitRow n where
  words := packWords n f
  length_words := by simp [packWords]
  padding j hj := by
    rw [bitAt_packWords]
    have : ¬ j < n := by omega
    simp [this]

/-- The row of clear bits. -/
def zero (n : Nat) : BitRow n where
  words := List.replicate (wordCount n) 0
  length_words := List.length_replicate
  padding j _ := bitAt_replicate_zero _ j

/-- The sum of two rows, bit by bit modulo 2, computed a word at a time. -/
def add (a b : BitRow n) : BitRow n where
  words := List.zipWith (· ^^^ ·) a.words b.words
  length_words := by simp [a.length_words, b.length_words]
  padding j hj := by
    rw [bitAt_zipWith_xor (a.length_words.trans b.length_words.symm), a.padding j hj,
      b.padding j hj]
    rfl

/-- Bit `j` of `ofFn n f` is `f j` inside the width. -/
theorem bit_ofFn (f : Nat → Bool) (j : Nat) : (ofFn n f).bit j = (decide (j < n) && f j) :=
  bitAt_packWords n f j

/-- A row of zeros has no bit set. -/
@[simp] theorem bit_zero (j : Nat) : (zero n).bit j = false := bitAt_replicate_zero _ j

/-- Bits of a sum of rows. -/
@[simp] theorem bit_add (a b : BitRow n) (j : Nat) :
    (a.add b).bit j = (a.bit j != b.bit j) :=
  bitAt_zipWith_xor (a.length_words.trans b.length_words.symm) j

/-- Positions past the width read as clear. -/
theorem bit_eq_false (r : BitRow n) {j : Nat} (h : n ≤ j) : r.bit j = false := r.padding j h

/-- Rows with the same bits are equal. -/
theorem ext_bit {a b : BitRow n} (h : ∀ j, j < n → a.bit j = b.bit j) : a = b := by
  have hw : a.words = b.words := by
    apply words_ext (a.length_words.trans b.length_words.symm)
    intro j
    by_cases hj : j < n
    · exact h j hj
    · rw [a.padding j (by omega), b.padding j (by omega)]
  cases a
  cases b
  cases hw
  rfl

/-- The row with bit `j` replaced by `v`: one word is rebuilt. A position past the width leaves the
row as it is. -/
def set (r : BitRow n) (j : Nat) (v : Bool) : BitRow n :=
  if h : j < n then
    { words := r.words.modify (j / 64) fun w =>
        packWord (fun b => if b = j % 64 then v else wordBit w b) 64
      length_words := by simp [r.length_words]
      padding := by
        intro i hi
        have hne : ¬ (i / 64 = j / 64 ∧ i % 64 = j % 64) := by omega
        have hp := r.padding i hi
        unfold bitAt at hp ⊢
        rw [List.getD_eq_getElem?_getD] at hp ⊢
        rw [List.getElem?_modify]
        by_cases hq : j / 64 = i / 64
        · have hm : ¬ i % 64 = j % 64 := fun hm => hne ⟨hq.symm, hm⟩
          cases hw : r.words[i / 64]? with
          | none => simp [hq]
          | some w =>
            rw [hw] at hp
            simp only [Option.getD_some] at hp
            simp [hq, wordBit_packWord _ (Nat.mod_lt i (by decide : 0 < 64)),
              Nat.mod_lt i (by decide : 0 < 64), hm, hp]
        · cases hw : r.words[i / 64]? with
          | none => simp
          | some w =>
            rw [hw] at hp
            simpa [hq] using hp }
  else r

/-- Setting bit `j` changes that bit and no other. -/
theorem bit_set (r : BitRow n) (j : Nat) (v : Bool) (i : Nat) :
    (r.set j v).bit i = if i = j ∧ j < n then v else r.bit i := by
  unfold set bit
  by_cases h : j < n
  · rw [dif_pos h]
    simp only [h, and_true]
    unfold bitAt
    rw [List.getD_eq_getElem?_getD, List.getD_eq_getElem?_getD, List.getElem?_modify]
    have hlen : j / 64 < r.words.length := by
      rw [r.length_words]; unfold wordCount; omega
    by_cases hij : i = j
    · subst hij
      rw [List.getElem?_eq_getElem hlen]
      have hlt := Nat.mod_lt i (by decide : 0 < 64)
      simp [wordBit_packWord _ hlt, hlt]
    · rw [if_neg hij]
      by_cases hq : j / 64 = i / 64
      · have hm : ¬ i % 64 = j % 64 := by omega
        cases hw : r.words[i / 64]? with
        | none => simp [hq]
        | some w =>
          simp [hq, wordBit_packWord _ (Nat.mod_lt i (by decide : 0 < 64)),
            Nat.mod_lt i (by decide : 0 < 64), hm]
      · simp [hq]
  · rw [dif_neg h]
    simp [h]

/-- Positions of the set bits, ascending: the set bits of each word in turn. -/
def ones (r : BitRow n) : List Nat :=
  r.words.zipIdx.flatMap fun (w, i) => ((List.range 64).filter (wordBit w)).map (64 * i + ·)

/-- Number of set bits, summed over the words. -/
def weight (r : BitRow n) : Nat :=
  r.words.foldr (fun w total => (List.range 64).countP (wordBit w) + total) 0

/-- Whether every word is zero. -/
def isZero (r : BitRow n) : Bool := r.words.all (· == 0)

end BitRow

end CnotSynthesis
