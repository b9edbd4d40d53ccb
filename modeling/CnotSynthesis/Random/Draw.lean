import CnotSynthesis.Random.WordStream

/-! # Random draws

Searches ask a few things of a source of random choices and rely on nothing but the range that each
answer has. **`Dice`** is such a source: the answers, and the ranges. A generator is a pair of dice
and a stream they read, so a statement about every `Generator` is a statement about every outcome of
the draws within those ranges.

* **`Dice`** — the random choices and their ranges; **`Dice.ofWords`** — those that read a stream of
  words.
* **`Generator`** — dice and the state of their stream; `Generator.ofSeed` is the one of a seed.
* **`Draw α`** — a value that depends on the choices to come: **`Draw.below`**, **`Draw.shuffle`**,
  **`Draw.sample`**, **`Draw.weighted`**. -/

namespace CnotSynthesis

/-- **A source of random choices.** What is drawn may depend in any way on the state of the source,
and stays in its range. -/
structure Dice where
  /-- A word of 64 bits. -/
  word64 : Reading UInt64
  /-- A floating-point number in `[0, 1)`. -/
  unitFloat : Reading Float
  /-- A number below a bound. -/
  below (n : Nat) : Reading Nat
  /-- The numbers in another order. -/
  shuffle (xs : List Nat) : Reading (List Nat)
  /-- Distinct positions, `amount` out of `length`. -/
  sample (length amount : Nat) : Reading (List Nat)
  /-- A position, each as likely as its weight. -/
  weighted (weights : List Float) : Reading Nat
  below_lt {n : Nat} (hn : 0 < n) (s : WordStream) : (below n s).1 < n
  shuffle_perm (xs : List Nat) (s : WordStream) : (shuffle xs s).1.Perm xs
  isSample_sample {length amount : Nat} (h : amount ≤ length) (s : WordStream) :
    IsSample (sample length amount s).1 length amount
  weighted_lt {weights : List Float} (h : weights ≠ []) (s : WordStream) :
    (weighted weights s).1 < weights.length

/-- The choices read off a stream of words. -/
def Dice.ofWords : Dice where
  word64 := WordStream.word64
  unitFloat := WordStream.unitFloat
  below := WordStream.below .w64
  shuffle := WordStream.shuffle
  sample := WordStream.sample
  weighted := WordStream.weighted
  below_lt := WordStream.below_lt .w64
  shuffle_perm := WordStream.shuffle_perm
  isSample_sample := WordStream.isSample_sample
  weighted_lt := WordStream.weighted_lt

/-- Dice and the state of the stream they read. -/
structure Generator where
  dice : Dice
  stream : WordStream

/-- The generator of a seed. -/
def Generator.ofSeed (seed : Nat) : Generator := ⟨Dice.ofWords, WordStream.ofSeed seed⟩

/-- A value that depends on the choices to come. -/
abbrev Draw := StateM Generator

namespace Draw

/-- Ask the dice. -/
def roll {α : Type} (choice : Dice → Reading α) : Draw α := fun g =>
  let (a, stream) := choice g.dice g.stream
  (a, { g with stream })

/-- A word of 64 bits. -/
def word64 : Draw UInt64 := roll (·.word64)

/-- A floating-point number in `[0, 1)`. -/
def unitFloat : Draw Float := roll (·.unitFloat)

/-- A number below `n`; for `0 < n`. -/
def below (n : Nat) : Draw Nat := roll (·.below n)

/-- The numbers in random order. -/
def shuffle (xs : List Nat) : Draw (List Nat) := roll (·.shuffle xs)

/-- A list of `amount` distinct positions below `length`, in random order; for `amount ≤ length`. -/
def sample (length amount : Nat) : Draw (List Nat) := roll (·.sample length amount)

/-- A position, each as likely as its weight; for at least one weight. -/
def weighted (weights : List Float) : Draw Nat := roll (·.weighted weights)

end Draw

end CnotSynthesis
