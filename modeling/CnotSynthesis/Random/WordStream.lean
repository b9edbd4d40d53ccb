import CnotSynthesis.Random.Keystream

/-! # Choices read off a stream of words

A stream of 32-bit words and how far it has been read make a source of random choices. Each choice
is given with the range in which it stays, whatever the words are.

* **`WordStream`** — the blocks of a stream and how far it has been read; `WordStream.ofSeed` is the
  stream of a seed.
* **`Reading α`** — a value that depends on the words to come.
* **`WordStream.below`**, **`WordStream.below_lt`** — a number below a bound.
* **`WordStream.shuffle`**, **`WordStream.shuffle_perm`** — a rearrangement.
* **`WordStream.sample`**, **`WordStream.isSample_sample`** — distinct positions.
* **`WordStream.weighted`**, **`WordStream.weighted_lt`** — a position, with given odds. -/

namespace CnotSynthesis

/-- A stream of words and how far it has been read. -/
structure WordStream where
  /-- The words of each block of the stream. -/
  block : Nat → List UInt32
  /-- The next block to be read. -/
  next : Nat
  /-- The words of the current block that have not been read. -/
  pending : List UInt32

/-- A value that depends on the words to come. -/
abbrev Reading := StateM WordStream

/-- Reading goes on where it stopped. -/
theorem Reading.bind_apply {α β : Type} (d : Reading α) (f : α → Reading β) (s : WordStream) :
    (d >>= f) s = f (d s).1 (d s).2 := rfl

namespace WordStream

/-- The stream of a seed, from its start. -/
def ofSeed (seed : Nat) : WordStream := ⟨Keystream.block (Keystream.keyOf seed), 0, []⟩

/-- A word of 32 bits. -/
def word32 : Reading UInt32 := fun s =>
  match s.pending with
  | w :: ws => (w, { s with pending := ws })
  | [] =>
    match s.block s.next with
    | w :: ws => (w, { s with next := s.next + 1, pending := ws })
    | [] => (0, { s with next := s.next + 1 })

/-- A word of 64 bits, low half first. -/
def word64 : Reading UInt64 := do
  let low ← word32
  let high ← word32
  return low.toUInt64 ||| (high.toUInt64 <<< 32)

/-- A floating-point number in `[0, 1)`, a multiple of `2^-53`. -/
def unitFloat : Reading Float := do
  return ((← word64) >>> 11).toFloat / 9007199254740992.0

/-! ## Numbers below a bound -/

/-- The widths of the words from which bounded numbers are made. -/
inductive Width where
  | w32
  | w64

/-- Number of bits. -/
def Width.bits : Width → Nat
  | .w32 => 32
  | .w64 => 64

/-- A word of the given width as a number. -/
def Width.word : Width → Reading Nat
  | .w32 => do return (← word32).toNat
  | .w64 => do return (← word64).toNat

/-- A word is as wide as it says. -/
theorem Width.word_lt (w : Width) (s : WordStream) : (w.word s).1 < 1 <<< w.bits := by
  cases w with
  | w32 => exact UInt32.toNat_lt _
  | w64 => exact UInt64.toNat_lt _

/-- The largest low half that is accepted for bound `n`: all numbers below `n` are then equally
likely. -/
def acceptance (w : Width) (n : Nat) : Nat := (n <<< (w.bits - 1 - n.log2)) - 1

/-- Draw words until one is accepted; a word gives the high half of its product with `n`. After
`fuel` rejections the next word is taken as it is. -/
def belowFrom (w : Width) (n : Nat) : Nat → Reading Nat
  | 0 => do return ((← w.word) * n) >>> w.bits
  | fuel + 1 => do
    let product := (← w.word) * n
    if product % (1 <<< w.bits) ≤ acceptance w n then return product >>> w.bits
    else belowFrom w n fuel

/-- A number below `n`. A rejection is less likely than an acceptance, so the bound on rejections is
out of reach. -/
def below (w : Width) (n : Nat) : Reading Nat := belowFrom w n 512

/-- The high half of a product with `n` is below `n`. -/
theorem mul_shiftRight_lt {word n bits : Nat} (hword : word < 1 <<< bits) (hn : 0 < n) :
    (word * n) >>> bits < n := by
  rw [Nat.one_shiftLeft] at hword
  rw [Nat.shiftRight_eq_div_pow, Nat.div_lt_iff_lt_mul (Nat.two_pow_pos bits), Nat.mul_comm n]
  exact Nat.mul_lt_mul_of_pos_right hword hn

/-- However many words are rejected, the number is below its bound. -/
theorem belowFrom_lt (w : Width) {n : Nat} (hn : 0 < n) (fuel : Nat) :
    ∀ s, (belowFrom w n fuel s).1 < n := by
  induction fuel with
  | zero => exact fun s => mul_shiftRight_lt (w.word_lt s) hn
  | succ fuel ih =>
    intro s
    rw [belowFrom, Reading.bind_apply]
    split
    · exact mul_shiftRight_lt (w.word_lt s) hn
    · exact ih _

/-- **A number below a bound.** -/
theorem below_lt (w : Width) {n : Nat} (hn : 0 < n) (s : WordStream) : (below w n s).1 < n :=
  belowFrom_lt w hn 512 s

end WordStream

/-! ## Rearrangements -/

/-- The elements at positions `i` and `j` exchanged. -/
def swapAt {α : Type} (xs : List α) (i j : Nat) : List α :=
  match xs[i]?, xs[j]? with
  | some a, some b => (xs.set i b).set j a
  | _, _ => xs

/-- Exchanging two elements rearranges. -/
theorem swapAt_perm {α : Type} (xs : List α) (i j : Nat) : (swapAt xs i j).Perm xs := by
  unfold swapAt
  split
  · next a b hi hj =>
    obtain ⟨hilt, rfl⟩ := List.getElem?_eq_some_iff.mp hi
    obtain ⟨hjlt, rfl⟩ := List.getElem?_eq_some_iff.mp hj
    exact List.set_set_perm hilt hjlt
  · exact List.Perm.refl xs

namespace WordStream

/-- Exchange each position from `k` down to 1 with one at or before it. -/
def shuffleFrom {α : Type} : Nat → List α → Reading (List α)
  | 0, xs => return xs
  | k + 1, xs => do
    let j ← below .w32 (k + 2)
    shuffleFrom k (swapAt xs (k + 1) j)

/-- The elements in random order. -/
def shuffle {α : Type} (xs : List α) : Reading (List α) := shuffleFrom (xs.length - 1) xs

/-- Exchanges, one after the other, rearrange. -/
theorem shuffleFrom_perm {α : Type} (k : Nat) :
    ∀ (xs : List α) (s : WordStream), (shuffleFrom k xs s).1.Perm xs := by
  induction k with
  | zero => exact fun xs _ => List.Perm.refl xs
  | succ k ih =>
    intro xs s
    rw [shuffleFrom, Reading.bind_apply]
    exact (ih _ _).trans (swapAt_perm xs (k + 1) _)

/-- **Shuffling rearranges.** -/
theorem shuffle_perm {α : Type} (xs : List α) (s : WordStream) : (shuffle xs s).1.Perm xs :=
  shuffleFrom_perm _ xs s

end WordStream

/-! ## Samples -/

/-- Distinct positions below `length`, as many as `amount`. -/
structure IsSample (positions : List Nat) (length amount : Nat) : Prop where
  nodup : positions.Nodup
  lt : ∀ p ∈ positions, p < length
  length_eq : positions.length = amount

/-- A sample with one more position, up to the old bound. -/
theorem IsSample.grow {picked grown : List Nat} {bound amount x : Nat}
    (h : IsSample picked bound amount) (hx : x < bound + 1) (hnew : x ∉ picked)
    (hperm : grown.Perm (x :: picked)) : IsSample grown (bound + 1) (amount + 1) := by
  refine ⟨hperm.nodup_iff.mpr (List.nodup_cons.mpr ⟨hnew, h.nodup⟩), ?_, ?_⟩
  · intro p hp
    rcases List.mem_cons.mp (hperm.mem_iff.mp hp) with rfl | hp
    · exact hx
    · exact Nat.lt_succ_of_lt (h.lt p hp)
  · rw [hperm.length_eq, List.length_cons, h.length_eq]

namespace WordStream

/-- Add a number drawn below `j + 1` for each of the given `j`; one that is there already lets `j`
in, just before it. -/
def sampleGrowing : List Nat → List Nat → Reading (List Nat)
  | picked, [] => return picked
  | picked, j :: js => do
    let t ← below .w32 (j + 1)
    match picked.findIdx? (· == t) with
    | some k => sampleGrowing (picked.insertIdx k j) js
    | none => sampleGrowing (picked ++ [t]) js

/-- Exchange position `i` with one at or after it, for the next `k` positions. -/
def sampleInPlace : Nat → Nat → List Nat → Reading (List Nat)
  | 0, _, xs => return xs
  | k + 1, i, xs => do
    let j ← below .w32 (xs.length - i)
    sampleInPlace k (i + 1) (swapAt xs i (i + j))

/-- Whether `amount` of `length` positions are sampled by growing the sample rather than by
rearranging all positions: for few positions, or few among many. -/
def growsSample (length amount : Nat) : Bool :=
  amount < 163 && !(11 < amount && 5 * length < (50 + 8 * amount) * amount)

/-- A list of `amount` distinct positions below `length`, in random order; for `amount ≤ length`. -/
def sample (length amount : Nat) : Reading (List Nat) :=
  if growsSample length amount then
    sampleGrowing [] (List.range' (length - amount) amount)
  else do
    return (← sampleInPlace amount 0 (List.range length)).take amount

/-- A sample grows by a number that is not in it: the one drawn, or else the bound itself. -/
theorem isSample_sampleGrowing (k : Nat) :
    ∀ (bound : Nat) (picked : List Nat) (amount : Nat) (s : WordStream),
      IsSample picked bound amount →
      IsSample (sampleGrowing picked (List.range' bound k) s).1 (bound + k) (amount + k) := by
  induction k with
  | zero => exact fun _ _ _ _ h => h
  | succ k ih =>
    intro bound picked amount s h
    have ht : (below .w32 (bound + 1) s).1 < bound + 1 := below_lt .w32 (Nat.succ_pos bound) s
    rw [List.range'_succ, sampleGrowing, Reading.bind_apply,
      show bound + (k + 1) = bound + 1 + k by omega,
      show amount + (k + 1) = amount + 1 + k by omega]
    cases hfind : picked.findIdx? (· == (below .w32 (bound + 1) s).1) with
    | some index =>
      have hlt : index < picked.length := (List.findIdx?_eq_some_iff_getElem.mp hfind).1
      have hperm := List.perm_insertIdx bound picked (Nat.le_of_lt hlt)
      refine ih _ _ _ _ (h.grow (Nat.lt_succ_self bound) ?_ hperm)
      exact fun hmem => Nat.lt_irrefl _ (h.lt bound hmem)
    | none =>
      refine ih _ _ _ _ (h.grow ht ?_ (List.perm_append_singleton _ picked))
      intro hmem
      have := List.findIdx?_eq_none_iff.mp hfind _ hmem
      simp at this

/-- Exchanges, one after the other, rearrange. -/
theorem sampleInPlace_perm (k : Nat) : ∀ (i : Nat) (xs : List Nat) (s : WordStream),
    (sampleInPlace k i xs s).1.Perm xs := by
  induction k with
  | zero => exact fun _ xs _ => List.Perm.refl xs
  | succ k ih =>
    intro i xs s
    rw [sampleInPlace, Reading.bind_apply]
    exact (ih _ _ _).trans (swapAt_perm xs i _)

/-- **Sampled positions are distinct**, by either way of sampling. -/
theorem isSample_sample {length amount : Nat} (h : amount ≤ length) (s : WordStream) :
    IsSample (sample length amount s).1 length amount := by
  unfold sample
  split
  · have hgrown := isSample_sampleGrowing amount (length - amount) [] 0 s
      ⟨List.nodup_nil, by simp, rfl⟩
    rwa [Nat.sub_add_cancel h, Nat.zero_add] at hgrown
  · have hperm := sampleInPlace_perm amount 0 (List.range length) s
    rw [Reading.bind_apply]
    refine ⟨(hperm.nodup_iff.mpr List.nodup_range).sublist (List.take_sublist _ _), ?_, ?_⟩
    · exact fun p hp => List.mem_range.mp (hperm.mem_iff.mp (List.mem_of_mem_take hp))
    · show (List.take amount _).length = amount
      rw [List.length_take, hperm.length_eq, List.length_range]
      omega

/-! ## Weighted choice -/

/-- Sums of the leading weights. -/
def runningSums : Float → List Float → List Float
  | _, [] => []
  | sum, w :: ws => (sum + w) :: runningSums (sum + w) ws

/-- The floating-point number just below a positive one. -/
def justBelow (x : Float) : Float := Float.ofBits (x.toBits - 1)

/-- The largest factor that keeps products with numbers up to `1 - 2^-52` below `total`. -/
def shrinkScale (total : Float) : Nat → Float → Float
  | 0, scale => scale
  | fuel + 1, scale =>
    if scale * (1.0 - 1.0 / 4503599627370496.0) ≥ total then
      shrinkScale total fuel (justBelow scale)
    else scale

/-- Positive weights prepared for a draw. -/
structure Odds where
  /-- Sums of the leading weights, without the total. -/
  sums : List Float
  /-- The factor of the draws. -/
  scale : Float

/-- Prepare the odds of positive weights. -/
def Odds.ofWeights : List Float → Odds
  | [] => ⟨[], 0.0⟩
  | w :: ws =>
    let sums := w :: runningSums w ws
    let total := sums.getLastD w
    ⟨sums.dropLast, shrinkScale total 64 total⟩

/-- A position, each as likely as its weight: the number of leading sums up to the drawn number. -/
def weighted (weights : List Float) : Reading Nat := do
  let odds := Odds.ofWeights weights
  let unit := ((← word64) >>> 12).toFloat / 4503599627370496.0
  let x := unit * odds.scale
  return odds.sums.countP (· ≤ x)

/-- There is a sum for every weight. -/
theorem length_runningSums (sum : Float) (weights : List Float) :
    (runningSums sum weights).length = weights.length := by
  induction weights generalizing sum with
  | nil => rfl
  | cons w weights ih => exact congrArg (· + 1) (ih _)

/-- The total is left out. -/
theorem length_sums_ofWeights (weights : List Float) :
    (Odds.ofWeights weights).sums.length = weights.length - 1 := by
  cases weights with
  | nil => rfl
  | cons w weights =>
    rw [Odds.ofWeights, List.length_dropLast, List.length_cons, length_runningSums,
      List.length_cons]

/-- **A position of one of the weights**, whatever they are worth. -/
theorem weighted_lt {weights : List Float} (h : weights ≠ []) (s : WordStream) :
    (weighted weights s).1 < weights.length := by
  have hsums := length_sums_ofWeights weights
  have hpos := List.length_pos_iff.mpr h
  rw [weighted, Reading.bind_apply]
  refine Nat.lt_of_le_of_lt List.countP_le_length ?_
  omega

end WordStream

end CnotSynthesis
