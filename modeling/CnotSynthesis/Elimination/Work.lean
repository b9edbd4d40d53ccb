import CnotSynthesis.Matrix.Basic

/-! # A matrix under elimination and its log

An elimination changes its matrix by row additions only, and writes every step into a log.

* **`Event`** — a step worth reporting: a row addition, a finished pivot or vertex, a finished
  generation or swarm step.
* **`Work`** — the matrix as it stands and the log, latest event first.
* **`Work.addRow`** — the one way to change the matrix; it logs what it does.
* **`rowAdditions events`** — the row additions of a log, in order; `ParityMatrix.addRows` applies
  them. `Work.Explains` ties the two: the matrix is what the log says. -/

namespace CnotSynthesis

/-- A step of a synthesis. -/
inductive Event where
  /-- Row `source` was added into row `target`. -/
  | row (target source : Nat)
  /-- Row `pivot` holds the only one of `column` among the rows still to be reduced. -/
  | pivot (column pivot : Nat)
  /-- Row `row` and column `column` were set aside. -/
  | vertex (row column : Nat)
  /-- A generation of a genetic search ended. -/
  | generation (index best : Nat)
  /-- A step of a swarm search ended. -/
  | swarm (index best : Nat)
deriving DecidableEq, Repr

/-- Row `source` added into row `target`. -/
structure RowAddition where
  target : Nat
  source : Nat
deriving DecidableEq, Repr

/-- The row additions among the events, in order. -/
def rowAdditions (events : List Event) : List RowAddition :=
  events.filterMap fun
    | .row target source => some ⟨target, source⟩
    | _ => none

/-- The row additions carried out one after the other. -/
def ParityMatrix.addRows (M : ParityMatrix) (ops : List RowAddition) : ParityMatrix :=
  ops.foldl (fun M op => M.addRow op.target op.source) M

/-- Row additions in two parts. -/
theorem ParityMatrix.addRows_append (M : ParityMatrix) (xs ys : List RowAddition) :
    M.addRows (xs ++ ys) = (M.addRows xs).addRows ys := List.foldl_append

/-- A matrix under elimination. -/
structure Work where
  /-- The matrix as it stands. -/
  matrix : ParityMatrix
  /-- What happened so far, latest first. -/
  log : List Event

namespace Work

/-- Nothing has happened yet. -/
def start (M : ParityMatrix) : Work := ⟨M, []⟩

/-- Add row `s` into row `t`. -/
def addRow (w : Work) (t s : Nat) : Work := ⟨w.matrix.addRow t s, .row t s :: w.log⟩

/-- Report an event that leaves the matrix alone. -/
def note (w : Work) (e : Event) : Work := { w with log := e :: w.log }

/-- The events in the order in which they happened. -/
def events (w : Work) : List Event := w.log.reverse

/-- The matrix is what the logged row additions make of `M`. -/
def Explains (w : Work) (M : ParityMatrix) : Prop := w.matrix = M.addRows (rowAdditions w.events)

end Work

end CnotSynthesis
