import CnotSynthesis.Elimination.Vertex
import CnotSynthesis.Graph.Standard

/-! # Best-first vertex elimination

Several pairs are tried at each step, and the partial elimination with the fewest row additions is
taken further first. Every partial elimination has a matrix of its own and a circuit of its own, in
which its row additions stand with the latest one in front. Of the elimination found, the circuit is
read backwards.

* **`Prospect`** — a partial elimination.
* **`pairsTried`** — the pairs tried from a prospect: the strategies' own choice, then the pairs
  with the lightest row and column.
* **`bestFirst`** — the row additions and the output of the elimination found.
* **`permRowCol`** — vertex elimination with rows and columns chosen apart, greedy or best first. -/

namespace CnotSynthesis

/-- Settings of a best-first elimination. -/
structure BestFirst where
  /-- Pairs tried from each prospect. -/
  width : Nat
  /-- Prospects taken further before the cheapest one is finished greedily. -/
  budget : Nat
deriving DecidableEq, Repr

/-- The usual settings. -/
def BestFirst.default : BestFirst := ⟨2, 64⟩

/-- A partial elimination that may be taken further. -/
structure Prospect where
  /-- The matrix as it stands. -/
  matrix : ParityMatrix
  /-- The row additions so far, recorded in a circuit. -/
  circuit : Circuit
  remaining : Remaining
  /-- Number of pairs set aside. -/
  depth : Nat
  /-- Prospects are numbered in the order in which they are made. -/
  number : Nat

namespace Prospect

/-- Number of row additions so far. -/
def cost (p : Prospect) : Nat := p.circuit.count

/-- Cheapest first, then deepest, then oldest. -/
def before (a b : Prospect) : Bool :=
  a.cost < b.cost || (a.cost == b.cost &&
    (b.depth < a.depth || (a.depth == b.depth && a.number < b.number)))

/-- Nothing is set aside yet. -/
def start (M : ParityMatrix) : Prospect where
  matrix := M
  circuit := Circuit.empty M.rows
  remaining := Remaining.start M.rows
  depth := 0
  number := 0

/-- Take a prospect further by a reduction, which is recorded in its circuit and reported to nobody:
the result, the matrix and the circuit. -/
def advance {α : Type} (p : Prospect) (r : Reduction α) :
    Except SynthesisError (α × ParityMatrix × Circuit) :=
  match r.runOn Recorder.bench ⟨p.matrix, some p.circuit, none⟩ with
  | (.ok a, recorder) => .ok (a, recorder.matrix, recorder.circuit.getD p.circuit)
  | (.error e, _) => .error e

/-- Set a pair aside. -/
def child (G : CouplingGraph) (p : Prospect) (number : Nat) (pair : Nat × Nat) :
    Except SynthesisError Prospect := do
  let (_, matrix, circuit) ← p.advance (Reduction.clearPair G pair.1 pair.2 p.remaining)
  let remaining := p.remaining.remove pair.1 pair.2
  return { matrix, circuit, remaining, depth := p.depth + 1, number }

/-- Finish greedily: the row additions, which the circuit lists backwards, and the output. -/
def settle (G : CouplingGraph) (choose : PairStrategy) (p : Prospect) :
    Except SynthesisError (List RowAddition × List Nat) := do
  let (final, _, circuit) ← p.advance (Reduction.eliminateAll G choose p.remaining)
  return (circuit.gates.reverse.map Gate.addition, final.output)

end Prospect

/-! ## The pairs tried -/

/-- The candidate pairs that hold a one, lightest row and column together first. -/
def pairsByWeight (M : ParityMatrix) (p : Remaining) (candidates : List Nat) : List (Nat × Nat) :=
  let weighted := candidates.flatMap fun row =>
    (p.columns.filter (M.entry row)).map fun column =>
      (M.rowWeightOn p.columns row + M.colWeightOn p.rows column, row, column)
  let before (a b : Nat × Nat × Nat) : Bool :=
    a.1 < b.1 || (a.1 == b.1 && pairBefore a.2 b.2)
  (sortDistinct before weighted).map (·.2)

/-- The pairs tried from a prospect: at most `width` of them, and at least one if there is one. -/
def pairsTried (G : CouplingGraph) (choose : PairStrategy) (width : Nat) (M : ParityMatrix)
    (p : Remaining) : List (Nat × Nat) :=
  let candidates := G.removable p.rows
  let chosen := (choose M p candidates).toList
  let others := (pairsByWeight M p candidates).filter fun pair => !chosen.contains pair
  (chosen ++ others).take (max width 1)

/-! ## The search -/

/-- The prospects that set aside each of the pairs, numbered from `number` on. -/
def offshoots (G : CouplingGraph) (p : Prospect) :
    Nat → List (Nat × Nat) → Except SynthesisError (List Prospect)
  | _, [] => .ok []
  | number, pair :: rest => do
    let child ← p.child G number pair
    return child :: (← offshoots G p (number + 1) rest)

/-- Take the best of the waiting prospects further, at most `budget` times; `made` prospects have
been numbered so far. -/
def bestFirstFrom (G : CouplingGraph) (choose : PairStrategy) (width : Nat) :
    Nat → Nat → List Prospect → Except SynthesisError (List RowAddition × List Nat)
  | budget, made, waiting =>
    match leastBy Prospect.before waiting with
    | none => .error (.structural .outOfStates)
    | some p =>
      match budget with
      | 0 => p.settle G choose
      | budget + 1 =>
        if p.remaining.rows.length ≤ 1 then p.settle G choose
        else do
          let pairs := pairsTried G choose width p.matrix p.remaining
          let children ← offshoots G p made pairs
          let others := waiting.filter fun other => other.number != p.number
          bestFirstFrom G choose width budget (made + children.length) (others ++ children)

/-- Best-first elimination of an invertible matrix. -/
def bestFirst (G : CouplingGraph) (choose : PairStrategy) (settings : BestFirst)
    (M : ParityMatrix) : Except SynthesisError (List RowAddition × List Nat) :=
  bestFirstFrom G choose settings.width settings.budget 1 [Prospect.start M]

/-! ## Eliminations of a whole matrix -/

namespace Reduction

/-- Carry out row additions. -/
def addRows (ops : List RowAddition) : Reduction Unit :=
  ops.forM fun op => addRow op.target op.source

/-- Vertex elimination with the row and the column of the same number: the number of rows. -/
def rowCol (G? : Option CouplingGraph) : Reduction Nat := do
  let n ← requireInvertible
  let G ← graphFor G? n
  let _ ← eliminateAll G tiedPair (Remaining.start n)
  return n

/-- Vertex elimination with rows and columns chosen apart: the row of each column. -/
def permRowCol (choose : PairStrategy) (search : Option BestFirst) (G? : Option CouplingGraph) :
    Reduction (List Nat) := do
  let n ← requireInvertible
  let G ← graphFor G? n
  match search with
  | none => return (← eliminateAll G choose (Remaining.start n)).output
  | some settings =>
    let (ops, output) ← bestFirst G choose settings (← matrix)
    addRows ops
    output.zipIdx.forM fun pair => report (.vertex pair.1 pair.2)
    return output

end Reduction

end CnotSynthesis
