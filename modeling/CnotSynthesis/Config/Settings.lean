import CnotSynthesis.Method

/-! # Settings of a synthesis

* **`Settings`** — everything besides the matrix and the coupling graph.
* **`Settings.check`** — the first setting out of range, if any: population, probabilities, swarm,
  threads, branches, then the mode. -/

namespace CnotSynthesis

/-- A share or probability must lie between zero and one. -/
def checkProbability (name : String) (value : Float) : Except ConfigCause Unit :=
  if 0.0 ≤ value ∧ value ≤ 1.0 then .ok () else .error (.notProbability name value)

/-- The settings of a genetic search are in range. -/
def Genetic.Settings.check (s : Genetic.Settings) : Except ConfigCause Unit := do
  if s.populationSize < 2 then throw (.populationTooSmall s.populationSize)
  checkProbability "crossover_prob" s.crossoverProb
  checkProbability "mutation_prob" s.mutationProb

/-- The settings of a swarm search are in range. -/
def Swarm.Settings.check (s : Swarm.Settings) : Except ConfigCause Unit := do
  if s.swarmSize = 0 then throw .emptySwarm
  checkProbability "s_crossover" s.swarmShare
  checkProbability "p_crossover" s.personalShare
  checkProbability "mutation" s.mutation

/-- Settings of a synthesis. -/
structure Settings where
  mode : Mode
  /-- Reduce to the identity rather than to an upper triangular matrix. -/
  fullReduce : Bool
  pivotOrder : PivotOrder
  metric : Metric
  genetic : Genetic.Settings
  swarm : Swarm.Settings
  /-- Best-first instead of greedy vertex elimination. -/
  bestFirst : Option BestFirst
  /-- How many evaluations may run at once; results do not depend on it. -/
  threads : Option Nat
  seed : Nat
  /-- Also reduce the transpose, and keep the cheaper circuit. -/
  tryTranspose : Bool

namespace Settings

/-- The usual settings. -/
def default : Settings where
  mode := .steiner
  fullReduce := true
  pivotOrder := .byGraph
  metric := .combined
  genetic := Genetic.Settings.default
  swarm := Swarm.Settings.default
  bestFirst := none
  threads := none
  seed := 0
  tryTranspose := false

/-- All settings are in range. -/
def check (s : Settings) : Except ConfigCause Unit := do
  s.genetic.check
  s.swarm.check
  if s.threads = some 0 then throw .noThreads
  if s.bestFirst.any (·.width == 0) then throw .noBranches
  if s.mode.searchesPlacements && !s.fullReduce then throw (.needsFullReduce s.mode)

/-- The settings of the search over placements. -/
def search (s : Settings) (source : Nat → Generator) : SearchSettings :=
  ⟨s.metric, s.genetic, s.swarm, s.seed, source⟩

/-- The elimination of which the placements are searched, or which is used as it is. -/
def baseMethod (s : Settings) : Method :=
  match s.mode with
  | .gauss | .geneticGauss | .swarmGauss => .gauss s.fullReduce
  | .rowCol => .rowCol
  | .permRowCol => .permRowCol lightestRow lightestColumn s.bestFirst
  | .steiner | .geneticSteiner | .swarmSteiner => .steiner s.fullReduce s.pivotOrder

/-- The method of the mode. -/
def method (s : Settings) (source : Nat → Generator) : Method :=
  match s.mode with
  | .geneticSteiner | .geneticGauss => .genetic s.baseMethod (s.search source)
  | .swarmSteiner | .swarmGauss => .swarm s.baseMethod (s.search source)
  | _ => s.baseMethod

/-- Whether the transpose is reduced as well. -/
def triesTranspose (s : Settings) : Bool :=
  s.tryTranspose && s.fullReduce && (s.mode == .gauss || s.mode == .steiner)

end Settings

end CnotSynthesis
