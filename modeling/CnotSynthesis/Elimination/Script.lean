import CnotSynthesis.Elimination.Work

/-! # Scripts of row additions

An elimination looks at its matrix, adds rows, and reports what it has reached. A script says what
comes next in each case, whatever it is carried out on.

* **`Script ε α`** — a script that ends with a result in `α` or with an error in `ε`.
* **`Bench ε σ`** — what scripts are carried out on: a state that shows a matrix, takes row
  additions, which it may reject, and hears of milestones. **`Script.runOn b`** carries a script
  out; it ends where a row addition is rejected.
* **`Script.exec`** — a script carried out on a matrix and its log, which reject nothing.
* **`Bench.beside record`** — a matrix beside a companion, such as a circuit or a second matrix,
  which records every row addition before it is made. -/

namespace CnotSynthesis

/-- What an elimination reports besides its row additions. -/
inductive Milestone where
  /-- Row `pivot` holds the only one of `column` among the rows still to be reduced. -/
  | pivot (column pivot : Nat)
  /-- Row `row` and column `column` were set aside. -/
  | vertex (row column : Nat)

/-- The milestone as an event. -/
def Milestone.event : Milestone → Event
  | .pivot column row => .pivot column row
  | .vertex row column => .vertex row column

/-- What an elimination does. -/
inductive Script (ε α : Type) where
  /-- It ends with a result. -/
  | done (a : α)
  /-- It ends with an error. -/
  | stop (e : ε)
  /-- It looks at the matrix as it stands. -/
  | look (rest : ParityMatrix → Script ε α)
  /-- It adds row `source` into row `target`. -/
  | add (target source : Nat) (rest : Script ε α)
  /-- It reports a milestone. -/
  | reach (m : Milestone) (rest : Script ε α)

namespace Script

variable {ε α β : Type}

/-- One script after another, which may depend on the result. -/
def bind : Script ε α → (α → Script ε β) → Script ε β
  | done a, f => f a
  | stop e, _ => stop e
  | look rest, f => look fun M => (rest M).bind f
  | add t s rest, f => add t s (rest.bind f)
  | reach m rest, f => reach m (rest.bind f)

/-- Scripts can be carried out one after the other. -/
instance : Monad (Script ε) where
  pure := done
  bind := bind

/-- What is computed apart from the matrix. -/
def ofExcept : Except ε α → Script ε α
  | .ok a => done a
  | .error e => stop e

/-- A computation on the side is a script. -/
instance : MonadLift (Except ε) (Script ε) := ⟨ofExcept⟩

/-- The matrix as it stands. -/
def matrix : Script ε ParityMatrix := look done

/-- Add row `source` into row `target`. -/
def addRow (target source : Nat) : Script ε Unit := add target source (done ())

/-- Report a milestone. -/
def report (m : Milestone) : Script ε Unit := reach m (done ())

end Script

/-! ## Carrying scripts out -/

/-- What scripts are carried out on. -/
structure Bench (ε σ : Type) where
  /-- The matrix that a state shows. -/
  matrix : σ → ParityMatrix
  /-- Row `source` is added into row `target`, or the addition is rejected. -/
  addRow : σ → (target source : Nat) → Except ε σ
  /-- A milestone is reported. -/
  hear : σ → Milestone → σ

namespace Script

variable {ε σ α : Type}

/-- Carry a script out: how it ends, and in which state. -/
def runOn (b : Bench ε σ) : Script ε α → σ → Except ε α × σ
  | done a, x => (.ok a, x)
  | stop e, x => (.error e, x)
  | look rest, x => runOn b (rest (b.matrix x)) x
  | add t s rest, x =>
    match b.addRow x t s with
    | .ok y => runOn b rest y
    | .error e => (.error e, x)
  | reach m rest, x => runOn b rest (b.hear x m)

end Script

/-- A matrix and its log. -/
def Work.bench (ε : Type) : Bench ε Work where
  matrix := Work.matrix
  addRow w t s := .ok (w.addRow t s)
  hear w m := w.note m.event

/-- Carry a script out on a matrix and its log. -/
def Script.exec {ε α : Type} (r : Script ε α) (w : Work) : Except ε α × Work :=
  r.runOn (Work.bench ε) w

/-- A matrix beside a companion that may reject row additions; what is rejected is not made. -/
def Bench.beside {ε γ : Type} (record : γ → Nat → Nat → Except ε γ) :
    Bench ε (ParityMatrix × γ) where
  matrix := Prod.fst
  addRow x t s := (record x.2 t s).map fun c => (x.1.addRow t s, c)
  hear x _ := x

end CnotSynthesis
