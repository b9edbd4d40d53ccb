import CnotSynthesis.Circuit.Basic
import CnotSynthesis.Elimination.Gauss
import CnotSynthesis.Random.Draw

/-! # Random matrices, circuits and permutations

The forms with a question mark draw nothing when the result could not be held. -/

namespace CnotSynthesis

/-- A list of `n` draws. -/
def Draw.times {α : Type} (draw : Draw α) : Nat → Draw (List α)
  | 0 => return []
  | n + 1 => do
    let a ← draw
    return a :: (← times draw n)

/-- A draw that a check may forbid: a breach leaves the stream unread. -/
def Draw.guarded {α : Type} (check : Except Breach Unit) (draw : Draw α) : Draw (Except Breach α) :=
  match check with
  | .ok _ => do return .ok (← draw)
  | .error breach => return .error breach

/-- A uniformly random matrix: a word is drawn for every 64 columns of every row, and what stands
past the last column is dropped. -/
def ParityMatrix.random (rows cols : Nat) : Draw ParityMatrix := do
  if cols = 0 then return ParityMatrix.zeros rows 0
  else
    let words ← Draw.times (Draw.times Draw.word64 (wordCount cols)) rows
    return ParityMatrix.ofBitRows (words.map fun ws => BitRow.ofFn cols (bitAt ws))

/-- A uniformly random matrix of a shape that can be held. -/
def ParityMatrix.random? (rows cols : Nat) : Draw (Except Breach ParityMatrix) :=
  Draw.guarded (ParityMatrix.requireShape rows cols) (ParityMatrix.random rows cols)

/-- Draw matrices until one is invertible; after `fuel` singular ones, the identity. -/
def ParityMatrix.randomInvertibleFrom (n : Nat) : Nat → Draw ParityMatrix
  | 0 => return ParityMatrix.identity n
  | fuel + 1 => do
    let M ← ParityMatrix.random n n
    if M.rank = n then return M else randomInvertibleFrom n fuel

/-- A uniformly random invertible matrix. More than a quarter of all matrices are invertible, so the
bound on singular draws is out of reach. -/
def ParityMatrix.randomInvertible (n : Nat) : Draw ParityMatrix := randomInvertibleFrom n 4096

/-- A uniformly random invertible matrix of a size that can be held. -/
def ParityMatrix.randomInvertible? (n : Nat) : Draw (Except Breach ParityMatrix) :=
  Draw.guarded (ParityMatrix.requireShape n n) (ParityMatrix.randomInvertible n)

/-- A random gate on two different wires out of `n`. -/
def Gate.random (n : Nat) : Draw Gate := do
  let control ← Draw.below n
  let target ← Draw.below (n - 1)
  return ⟨control, if control ≤ target then target + 1 else target⟩

/-- A circuit of random gates; none when there are fewer than two wires. -/
def Circuit.random (qubits gates : Nat) : Draw Circuit := do
  if qubits < 2 then return Circuit.empty qubits
  else return { Circuit.empty qubits with gates := ← Draw.times (Gate.random qubits) gates }

/-- A uniformly random permutation of `0..n`. -/
def Draw.permutation (n : Nat) : Draw (List Nat) := Draw.shuffle (List.range n)

/-- A uniformly random permutation of `0..n` that can be held. -/
def Draw.permutation? (n : Nat) : Draw (Except Breach (List Nat)) :=
  Draw.guarded (requireRoom n) (Draw.permutation n)

end CnotSynthesis
