/-! # A keyed stream of words

The words behind every random choice: a block cipher in counter mode with 12 rounds, keyed by eight
words that are spread from a 64-bit seed.

* **`Keystream.block key i`** — the 16 words of block `i`.
* **`Keystream.keyOf seed`** — the key of a seed. -/

namespace CnotSynthesis.Keystream

/-- A word with its bits rotated to the left. -/
def rotateLeft (x : UInt32) (k : UInt32) : UInt32 := (x <<< k) ||| (x >>> (32 - k))

/-- A word with its bits rotated to the right; by nothing when `k` is zero. -/
def rotateRight (x : UInt32) (k : UInt32) : UInt32 :=
  if k = 0 then x else (x >>> k) ||| (x <<< (32 - k))

/-- Mix the words at four positions of the state. -/
def quarterRound (s : Array UInt32) (a b c d : Nat) : Array UInt32 :=
  let x := s.getD a 0
  let y := s.getD b 0
  let z := s.getD c 0
  let w := s.getD d 0
  let x := x + y
  let w := rotateLeft (w ^^^ x) 16
  let z := z + w
  let y := rotateLeft (y ^^^ z) 12
  let x := x + y
  let w := rotateLeft (w ^^^ x) 8
  let z := z + w
  let y := rotateLeft (y ^^^ z) 7
  (((s.setIfInBounds a x).setIfInBounds b y).setIfInBounds c z).setIfInBounds d w

/-- A round on the columns and a round on the diagonals of the 4 x 4 state. -/
def doubleRound (s : Array UInt32) : Array UInt32 :=
  let s := quarterRound s 0 4 8 12
  let s := quarterRound s 1 5 9 13
  let s := quarterRound s 2 6 10 14
  let s := quarterRound s 3 7 11 15
  let s := quarterRound s 0 5 10 15
  let s := quarterRound s 1 6 11 12
  let s := quarterRound s 2 7 8 13
  quarterRound s 3 4 9 14

/-- Carry out `n` double rounds. -/
def mix : Nat → Array UInt32 → Array UInt32
  | 0, s => s
  | n + 1, s => mix n (doubleRound s)

/-- The state before the rounds: four constants, the key, the block number, two zeros. -/
def initial (key : List UInt32) (index : Nat) : Array UInt32 :=
  ([0x61707865, 0x3320646e, 0x79622d32, 0x6b206574] ++ key ++
    [UInt32.ofNat index, UInt32.ofNat (index / UInt32.size), 0, 0]).toArray

/-- The 16 words of block `index`: the mixed state added to the initial one. -/
def block (key : List UInt32) (index : Nat) : List UInt32 :=
  let start := initial key index
  List.zipWith (· + ·) (mix 6 start).toList start.toList

/-- Spread a seed over `n` words, by a linear congruence with a permuted output. -/
def spread : Nat → UInt64 → List UInt32
  | 0, _ => []
  | n + 1, s =>
    let s := s * 6364136223846793005 + 11634580027462260723
    let x := (((s >>> 18) ^^^ s) >>> 27).toUInt32
    rotateRight x (s >>> 59).toUInt32 :: spread n s

/-- The key of a seed; seeds are taken modulo `2^64`. -/
def keyOf (seed : Nat) : List UInt32 := spread 8 (UInt64.ofNat seed)

end CnotSynthesis.Keystream
