import CnotSynthesis.Elimination.BestFirst
import CnotSynthesis.Elimination.Steiner
import CnotSynthesis.Placement.Chain

/-! # Methods of reduction

* **`Method`** — the ways to reduce a matrix: four eliminations, and two placement searches
  around another method.
* **`Method.reduceWith listens`** — carries one out, **`Method.reduce`** with a listener. A
  placement search relabels the matrix, reduces it with the inner method, and attaches the
  relabelling to the circuit. -/

namespace CnotSynthesis

/-- A way to reduce a matrix. -/
inductive Method where
  /-- Gaussian elimination; only downwards unless `full`. -/
  | gauss (full : Bool)
  /-- Gaussian elimination along Steiner trees; only downwards unless `full`. -/
  | steiner (full : Bool) (order : PivotOrder)
  /-- Vertex elimination, row and column tied. -/
  | rowCol
  /-- Vertex elimination, row and column chosen apart. -/
  | permRowCol (row : RowStrategy) (column : ColumnStrategy) (search : Option BestFirst)
  /-- A genetic search for one placement of rows and columns. -/
  | genetic (base : Method) (settings : SearchSettings)
  /-- A swarm search for a placement of the rows and one of the columns. -/
  | swarm (base : Method) (settings : SearchSettings)

namespace Method

/-- The name of a method. -/
def name : Method → String
  | .gauss _ => "gauss"
  | .steiner _ .byRow => "steiner_gauss"
  | .steiner _ .byGraph => "rec_steiner_gauss"
  | .rowCol => "row_col"
  | .permRowCol .. => "perm_row_col"
  | .genetic .. => "genetic"
  | .swarm .. => "pso"

/-! ## Eliminations -/

/-- The companion of a Gaussian elimination: a circuit, if there is one, and a tracer. -/
structure Traced where
  circuit : Option Circuit
  tracer : Tracer

/-- The circuit records a row addition or rejects it, then the tracer hears of it. -/
def Traced.recordRow (c : Traced) (t s : Nat) : Except AlgebraError Traced := do
  let circuit ← recordIn c.circuit t s
  return ⟨circuit, c.tracer.emit (.row t s)⟩

/-- Gaussian elimination of `M`; without a circuit and a listener there is no companion. -/
def gaussRun (full listens : Bool) (M : ParityMatrix) (circuit : Option Circuit) : Run Nat :=
  if circuit.isNone && !listens then
    let after := gaussWith (fun (c : Unit) _ _ => .ok c) full M ()
    ⟨after.matrix, none, [], after.outcome.mapError fun e => .refused (.algebra e)⟩
  else
    let after := gaussWith Traced.recordRow full M ⟨circuit, .start listens⟩
    ⟨after.matrix, after.companion.circuit, after.companion.tracer.events,
      after.outcome.mapError fun e => .refused (.algebra e)⟩

/-- Gaussian elimination along Steiner trees of a graph with as many qubits as rows. -/
def steinerReduction (full : Bool) (order : PivotOrder) (G? : Option CouplingGraph) :
    Reduction Nat := do
  let G ← graphFor G? (← Reduction.matrix).rows
  Reduction.steiner order full G

/-- Reduce `M` to a permutation matrix: the row of each column. -/
def permuteWith (listens : Bool) (row : RowStrategy) (column : ColumnStrategy)
    (search : Option BestFirst) (G? : Option CouplingGraph) (M : ParityMatrix)
    (circuit : Option Circuit) : Run (List Nat) :=
  (Reduction.permRowCol (freePair row column) search G?).record listens M circuit

/-- Reduce `M` to a permutation matrix and report the steps: the row of each column. -/
def permute (row : RowStrategy) (column : ColumnStrategy) (search : Option BestFirst)
    (G? : Option CouplingGraph) (M : ParityMatrix) (circuit : Option Circuit) : Run (List Nat) :=
  permuteWith true row column search G? M circuit

/-- The layout of a circuit whose matrix ended as a permutation matrix: the columns are
relabelled. -/
def attachOutput (output : List Nat) (c : Circuit) : Except (Fault SynthesisError) Circuit :=
  (c.setLayout ⟨List.range output.length, Permutation.inverse output⟩).mapError
    fun e => .refused (.algebra e)

/-! ## Placements -/

/-- Relabel a layout by the placements that were made before it. -/
def attachPlacement (rows cols : List Nat) (c : Circuit) :
    Except (Fault SynthesisError) Circuit := do
  let inner := c.layout.getD (Layout.identity rows.length)
  let rowPerm ← (Permutation.compose? rows inner.rowPerm).mapError .broken
  let colPerm ← (Permutation.compose? cols inner.colPerm).mapError .broken
  (c.setLayout ⟨rowPerm, colPerm⟩).mapError fun e => .refused (.algebra e)

/-- Relabel `M`, reduce it, and attach the placements to the circuit; of the steps only `events` are
reported. -/
def reduceRelabelled (reduce : Reducer) (G? : Option CouplingGraph) (M : ParityMatrix)
    (circuit : Option Circuit) (rows cols : List Nat) (events : List Event) : Run Nat :=
  match M.relabel? rows cols with
  | .error e => ⟨M, circuit, events, .error (.refused (.algebra e))⟩
  | .ok N =>
    let run := reduce G? N circuit
    { run with events := events }.mapCircuit fun _ => attachPlacement rows cols

/-- The placement that a genetic search finds for `M`, and its events. The identity is tried
first. -/
def geneticPlacement (reduce : Reducer) (s : SearchSettings) (G? : Option CouplingGraph)
    (M : ParityMatrix) : Except Breach (List Event × List Nat) := do
  let task : Placement.Task := ⟨M, reduce, G?, s.metric, true, true⟩
  task.requireAxes
  task.check (List.range M.rows)
  let start := Genetic.State.start (s.generator 0)
  return (Genetic.find s.genetic task.fitness M.rows s.genetic.generations start).2

/-- The chain that a swarm search finds for `M` alone, and its events. -/
def swarmPlacement (reduce : Reducer) (s : SearchSettings) (G? : Option CouplingGraph)
    (M : ParityMatrix) : Except (Fault SynthesisError) Chain.Solution × List Event :=
  let engine : Chain.Engine := ⟨reduce, false, G?, s⟩
  (engine.synthesize .swarm [M] true true).run.run []

/-- Reduce `M` on a coupling graph and record the row additions in a circuit, if they are given. The
steps are reported if somebody listens; a placement search reports its own steps only. -/
def reduceWith (listens : Bool) : Method → Reducer
  | .gauss full, _, M, c => gaussRun full listens M c
  | .steiner full order, G?, M, c => (steinerReduction full order G?).record listens M c
  | .rowCol, G?, M, c => (Reduction.rowCol G?).record listens M c
  | .permRowCol row column search, G?, M, c =>
    ((permuteWith listens row column search G? M c).mapCircuit attachOutput).map List.length
  | .genetic base s, G?, M, c =>
    match geneticPlacement (base.reduceWith true) s G? M with
    | .error breach => ⟨M, c, [], .error (.broken breach)⟩
    | .ok (events, placement) =>
      reduceRelabelled (base.reduceWith true) G? M c placement placement
        (if listens then events else [])
  | .swarm base s, G?, M, c =>
    match swarmPlacement (base.reduceWith true) s G? M with
    | (.error e, events) => ⟨M, c, if listens then events else [], .error e⟩
    | (.ok solution, events) =>
      let identity := List.range M.rows
      let cols := solution.placements[0]?.getD identity
      let rows := solution.placements[1]?.getD identity
      reduceRelabelled (base.reduceWith true) G? M c rows cols (if listens then events else [])

/-- Reduce `M` and report the steps. -/
def reduce (m : Method) : Reducer := m.reduceWith true

end Method

end CnotSynthesis
