import CnotSynthesis.Circuit.Basic
import CnotSynthesis.Elimination.Script
import CnotSynthesis.Error.Synthesis

/-! # Reductions and runs

* **`Reduction α`** — an elimination as a script: it may end in an error of the synthesis.
* **`Tracer`** — what a listener has heard, if somebody listens.
* **`Recorder`** — a matrix, a circuit that records the row additions, if there is one, and a
  tracer. `Recorder.addRow` asks the circuit first, then changes the matrix, then tells the tracer.
* **`Run α`** — what a reduction leaves behind: matrix, circuit, events and outcome.
  **`Reduction.record`** carries a reduction out on a recorder. -/

namespace CnotSynthesis

/-- An elimination that may end in an error. -/
abbrev Reduction := Script SynthesisError

namespace Reduction

variable {α : Type}

/-- A step that the coupling graph may not allow. -/
def attempt (r : Except StructuralCause α) : Reduction α :=
  match r with
  | .ok a => return a
  | .error cause => .stop (.structural cause)

/-- End in a structural error. -/
def fail (cause : StructuralCause) : Reduction α := .stop (.structural cause)

/-- The matrix as it stands. -/
def matrix : Reduction ParityMatrix := Script.matrix

/-- Add row `source` into row `target`. -/
def addRow (target source : Nat) : Reduction Unit := Script.addRow target source

/-- Report a milestone. -/
def report (m : Milestone) : Reduction Unit := Script.report m

end Reduction

/-! ## Who takes note -/

/-- What a listener has heard so far, latest first; `none` if nobody listens. -/
abbrev Tracer := Option (List Event)

namespace Tracer

/-- A tracer at the beginning, with a listener or without one. -/
def start (listens : Bool) : Tracer := if listens then some [] else none

/-- Tell the listener, if there is one. -/
def emit (t : Tracer) (e : Event) : Tracer := t.map (e :: ·)

/-- The events heard, in the order in which they happened. -/
def events (t : Tracer) : List Event := (t.getD []).reverse

end Tracer

/-- Record a row addition in a circuit, if there is one. -/
def recordIn : Option Circuit → Nat → Nat → Except AlgebraError (Option Circuit)
  | none, _, _ => .ok none
  | some c, t, s => (c.recordRow t s).map some

/-- The row addition that a gate carries out. -/
def Gate.addition (g : Gate) : RowAddition := ⟨g.target, g.control⟩

/-- A matrix under elimination, with a circuit and a tracer that take note of it. -/
structure Recorder where
  matrix : ParityMatrix
  circuit : Option Circuit
  tracer : Tracer

namespace Recorder

/-- Add row `s` into row `t`: the circuit records it or rejects it, then the matrix changes, then
the tracer hears of it. -/
def addRow (r : Recorder) (t s : Nat) : Except SynthesisError Recorder := do
  let circuit ← (recordIn r.circuit t s).mapError .algebra
  let r := { r with circuit }
  let r := { r with matrix := r.matrix.addRow t s }
  return { r with tracer := r.tracer.emit (.row t s) }

/-- Reductions are carried out on recorders. -/
def bench : Bench SynthesisError Recorder where
  matrix := Recorder.matrix
  addRow := addRow
  hear r m := { r with tracer := r.tracer.emit m.event }

end Recorder

/-! ## Runs -/

/-- What a reduction leaves behind. -/
structure Run (α : Type) where
  matrix : ParityMatrix
  circuit : Option Circuit
  events : List Event
  outcome : Except (Fault SynthesisError) α

/-- Carry a reduction of `M` out, recording it in a circuit and reporting to a listener, if there
are such. -/
def Reduction.record {α : Type} (r : Reduction α) (listens : Bool) (M : ParityMatrix)
    (circuit : Option Circuit) : Run α :=
  let (outcome, recorder) := r.runOn Recorder.bench ⟨M, circuit, .start listens⟩
  ⟨recorder.matrix, recorder.circuit, recorder.tracer.events, outcome.mapError .refused⟩

namespace Run

variable {α β : Type}

/-- The result read as something else. -/
def map (f : α → β) (r : Run α) : Run β := { r with outcome := r.outcome.map f }

/-- Change the circuit of a successful run by means of its result; the change may fail. -/
def mapCircuit (f : α → Circuit → Except (Fault SynthesisError) Circuit) (r : Run α) : Run α :=
  match r.outcome, r.circuit with
  | .ok a, some c =>
    match f a c with
    | .ok d => { r with circuit := some d }
    | .error e => { r with outcome := .error e }
  | _, _ => r

end Run

end CnotSynthesis
