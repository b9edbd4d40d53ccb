import CnotSynthesis.Config.Settings
import CnotSynthesis.Json.Reader

/-! # Settings as documents

A document names the settings that differ from the usual ones: fields may be missing.

* **`Settings.ofJson?`** — settings from a value, unchecked.
* **`Settings.ofDocument`** — settings from a text, checked.
* **`Settings.toJson`** — all settings as a value. -/

namespace CnotSynthesis

/-- A floating-point number as a value. -/
def Json.ofFloat (x : Float) : Json := .number (Decimal.Format.document.render x)

/-- The value of a field, or the usual one when the field is missing. -/
def Json.orDefault? {α : Type} (read : Json → Option α) (default : α) : Option Json → Option α
  | none => some default
  | some v => read v

namespace Genetic.Settings

/-- The settings of a genetic search as an object. -/
def toJson (s : Settings) : Json :=
  .object [("population_size", .ofNat s.populationSize),
    ("crossover_prob", .ofFloat s.crossoverProb), ("mutation_prob", .ofFloat s.mutationProb),
    ("generations", .ofNat s.generations), ("children", .ofOption .ofNat s.children)]

/-- The settings of a genetic search from a record. -/
def ofJson? (v : Json) : Option Settings := do
  let d := Settings.default
  let [population, crossover, mutation, generations, children] ←
    v.record? ["population_size", "crossover_prob", "mutation_prob", "generations", "children"]
    | none
  return {
    populationSize := ← Json.orDefault? Json.nat? d.populationSize population
    crossoverProb := ← Json.orDefault? Json.float? d.crossoverProb crossover
    mutationProb := ← Json.orDefault? Json.float? d.mutationProb mutation
    generations := ← Json.orDefault? Json.nat? d.generations generations
    children := ← Json.orDefault? (Json.option? Json.nat?) d.children children }

end Genetic.Settings

namespace Swarm.Settings

/-- The settings of a swarm search as an object. -/
def toJson (s : Settings) : Json :=
  .object [("swarm_size", .ofNat s.swarmSize), ("steps", .ofNat s.steps),
    ("s_crossover", .ofFloat s.swarmShare), ("p_crossover", .ofFloat s.personalShare),
    ("mutation", .ofFloat s.mutation)]

/-- The settings of a swarm search from a record. -/
def ofJson? (v : Json) : Option Settings := do
  let d := Settings.default
  let [size, steps, swarmShare, personalShare, mutation] ←
    v.record? ["swarm_size", "steps", "s_crossover", "p_crossover", "mutation"] | none
  return {
    swarmSize := ← Json.orDefault? Json.nat? d.swarmSize size
    steps := ← Json.orDefault? Json.nat? d.steps steps
    swarmShare := ← Json.orDefault? Json.float? d.swarmShare swarmShare
    personalShare := ← Json.orDefault? Json.float? d.personalShare personalShare
    mutation := ← Json.orDefault? Json.float? d.mutation mutation }

end Swarm.Settings

namespace BestFirst

/-- The settings of a best-first elimination as an object. -/
def toJson (s : BestFirst) : Json :=
  .object [("branch_width", .ofNat s.width), ("max_expansions", .ofNat s.budget)]

/-- The settings of a best-first elimination from a record. -/
def ofJson? (v : Json) : Option BestFirst := do
  let d := BestFirst.default
  let [width, expansions] ← v.record? ["branch_width", "max_expansions"] | none
  return {
    width := ← Json.orDefault? Json.nat? d.width width
    budget := ← Json.orDefault? Json.nat? d.budget expansions }

end BestFirst

namespace Settings

/-- The settings as an object. -/
def toJson (s : Settings) : Json :=
  .object [("mode", .string s.mode.name), ("full_reduce", .bool s.fullReduce),
    ("steiner_variant", .string s.pivotOrder.name), ("metric", .string s.metric.name),
    ("genetic", s.genetic.toJson), ("swarm", s.swarm.toJson),
    ("best_first", .ofOption BestFirst.toJson s.bestFirst),
    ("threads", .ofOption .ofNat s.threads), ("seed", .ofNat s.seed),
    ("try_transpose", .bool s.tryTranspose)]

/-- The settings from a record. -/
def ofJson? (v : Json) : Option Settings := do
  let d := Settings.default
  let [mode, full, pivotOrder, metric, genetic, swarm, bestFirst, threads, seed, transpose] ←
    v.record? ["mode", "full_reduce", "steiner_variant", "metric", "genetic", "swarm", "best_first",
      "threads", "seed", "try_transpose"] | none
  return {
    mode := ← Json.orDefault? (Json.choice? Mode.named?) d.mode mode
    fullReduce := ← Json.orDefault? Json.bool? d.fullReduce full
    pivotOrder := ← Json.orDefault? (Json.choice? PivotOrder.find?) d.pivotOrder pivotOrder
    metric := ← Json.orDefault? (Json.choice? Metric.find?) d.metric metric
    genetic := ← Json.orDefault? Genetic.Settings.ofJson? d.genetic genetic
    swarm := ← Json.orDefault? Swarm.Settings.ofJson? d.swarm swarm
    bestFirst := ← Json.orDefault? (Json.option? BestFirst.ofJson?) d.bestFirst bestFirst
    threads := ← Json.orDefault? (Json.option? Json.nat?) d.threads threads
    seed := ← Json.orDefault? Json.nat? d.seed seed
    tryTranspose := ← Json.orDefault? Json.bool? d.tryTranspose transpose }

/-- Checked settings from a text. -/
def ofDocument (text : String) : Except SynthesisError Settings :=
  match (Json.parse? text).bind ofJson? with
  | none => .error .unreadable
  | some s => (s.check.map fun _ => s).mapError .invalidConfiguration

/-- All settings as a text of several lines. -/
def toDocument (s : Settings) : String := s.toJson.pretty

end Settings

end CnotSynthesis
