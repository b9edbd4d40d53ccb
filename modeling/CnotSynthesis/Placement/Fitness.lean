import CnotSynthesis.Circuit.Metric
import CnotSynthesis.Elimination.Reduction
import CnotSynthesis.Graph.Coupling

/-! # The cost of a placement

* **`Reducer`** — an elimination as a function: graph, matrix and circuit to a run.
* **`Placement.Task`** — a matrix to be relabelled and reduced.
* **`Task.fitness`** — the cost of the circuit found for a placement.
* **`Task.check`** — whether a placement can be tried without breaking a contract. -/

namespace CnotSynthesis

/-- An elimination of a matrix on a coupling graph, recorded in a circuit; each of the latter two
may be missing. -/
abbrev Reducer := Option CouplingGraph → ParityMatrix → Option Circuit → Run Nat

/-- The cost of a placement for which there is no circuit, above every other cost. -/
def infeasible : Nat := UInt64.size - 1

namespace Placement

/-- A matrix whose rows, columns or both are to be relabelled before it is reduced. -/
structure Task where
  matrix : ParityMatrix
  reduce : Reducer
  graph : Option CouplingGraph
  metric : Metric
  permuteRows : Bool
  permuteColumns : Bool

namespace Task

/-- The matrix relabelled by the placement on the chosen axes, if the placement fits. -/
def relabel (t : Task) (placement : List Nat) : Option ParityMatrix :=
  let rowPerm := if t.permuteRows then placement else List.range t.matrix.rows
  let colPerm := if t.permuteColumns then placement else List.range t.matrix.cols
  (t.matrix.relabel? rowPerm colPerm).toOption

/-- The reduction of the relabelled matrix. -/
def run (t : Task) (placement : List Nat) : Option (Run Nat) :=
  (t.relabel placement).map fun M => t.reduce t.graph M (some (Circuit.empty M.rows))

/-- The circuit found for the relabelled matrix. -/
def circuit (t : Task) (placement : List Nat) : Option Circuit := do
  let run ← t.run placement
  match run.outcome with
  | .ok _ => run.circuit
  | .error _ => none

/-- The cost of a placement. -/
def fitness (t : Task) (placement : List Nat) : Nat :=
  match t.circuit placement with
  | some c => t.metric.score c
  | none => infeasible

/-- Check that the rows and the columns of the matrix can be listed. -/
def requireAxes (t : Task) : Except Breach Unit := do
  requireRoom t.matrix.rows
  requireRoom t.matrix.cols

/-- Check that a placement can be tried: its cost stands for a failure of the reduction, but not for
a breach. -/
def check (t : Task) (placement : List Nat) : Except Breach Unit := do
  t.requireAxes
  match (t.run placement).map Run.outcome with
  | some (.error (.broken breach)) => throw breach
  | _ => return ()

end Task

end Placement

end CnotSynthesis
