import CnotSynthesis.Circuit.Basic

/-! # Costs of circuits

* **`Metric.score m c`** — the cost of a circuit under a metric; smaller is better. -/

namespace CnotSynthesis

/-- What a circuit is charged for. -/
inductive Metric where
  /-- Layers first, gates second. -/
  | combined
  /-- Number of gates. -/
  | count
  /-- Number of layers. -/
  | depth
deriving DecidableEq, Repr

namespace Metric

/-- Every metric. -/
def all : List Metric := [.combined, .count, .depth]

/-- The name of a metric in documents. -/
def name : Metric → String
  | .combined => "combined"
  | .count => "count"
  | .depth => "depth"

/-- The metric with the given name. -/
def find? (text : String) : Option Metric := all.find? (·.name == text)

/-- The cost of a circuit; under `combined` a layer weighs as much as ten thousand gates. -/
def score (m : Metric) (c : Circuit) : Nat :=
  match m with
  | .combined => c.depth * 10000 + c.count
  | .count => c.count
  | .depth => c.depth

end Metric

end CnotSynthesis
