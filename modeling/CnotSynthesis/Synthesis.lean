import CnotSynthesis.Config.Settings

/-! # Synthesis

* **`Synthesis.Setup`** — checked settings and, perhaps, a coupling graph.
* **`Setup.run M`** — a circuit for a matrix; the cheaper one of the matrix and its transpose where
  the settings say so.
* **`Setup.runChain Ms`** — circuits for a chain of matrices.

Both report what happens, also before a failure. -/

namespace CnotSynthesis

/-- The row of the only one of each column, for a square matrix with one in every row and column. -/
def ParityMatrix.permutation? (M : ParityMatrix) : Option (List Nat) := do
  if !M.isSquare then none
  let perm ← (List.range M.cols).mapM fun c =>
    match M.colOnes c with
    | [row] => some row
    | _ => none
  if perm.Nodup then return perm else none

namespace Synthesis

open Chain

/-- A circuit for a matrix. -/
structure Outcome where
  circuit : Circuit
  /-- What the matrix was reduced to. -/
  matrix : ParityMatrix
  /-- The rank of the matrix. -/
  rank : Nat

/-- The row of the only one of each column, if the matrix ended as a permutation matrix. -/
def Outcome.outputPerm? (o : Outcome) : Option (List Nat) := o.matrix.permutation?

/-- Settings, a coupling graph, and the generators of the draws. -/
structure Setup where
  settings : Settings
  graph : Option CouplingGraph
  source : Nat → Generator := Generator.ofSeed

/-- A setup with settings in range. -/
def Setup.build (settings : Settings) (graph : Option CouplingGraph) :
    Except SynthesisError Setup :=
  (settings.check.map fun _ => ⟨settings, graph, Generator.ofSeed⟩).mapError .invalidConfiguration

/-- How the placements of a chain are chosen; vertex elimination with free columns relabels the
inputs, so it cannot be chained. -/
def chainStrategy? : Mode → Option Strategy
  | .permRowCol => none
  | .geneticSteiner | .geneticGauss => some .genetic
  | .swarmSteiner | .swarmGauss => some .swarm
  | _ => some .basic

namespace Setup

variable (s : Setup)

/-- The method of the mode. -/
def method : Method := s.settings.method s.source

/-- The graph for a matrix of `n` rows: modes that respect couplings have one in any case, the
others only if one was given. -/
def routingGraph (n : Nat) : Except (Fault SynthesisError) (Option CouplingGraph) :=
  match s.graph with
  | some G => ((graphFor (some G) n).map some).mapError .refused
  | none =>
    if s.settings.mode.respectsCoupling then
      ((CouplingGraph.complete? n).map some).mapError .broken
    else .ok none

/-- Reduce a matrix from an empty circuit: what it was reduced to, and the circuit. -/
def reduceFresh (G? : Option CouplingGraph) (M : ParityMatrix) : Reporting Outcome := do
  let run := s.method.reduce G? M (some (Circuit.empty M.rows))
  report run.events
  let rank ← (run.outcome : Except (Fault SynthesisError) Nat)
  return ⟨run.circuit.getD (Circuit.empty M.rows), run.matrix, rank⟩

/-- The circuit of the transpose turned around, if it is one and costs less. -/
def cheaperTranspose? (direct transposed : Outcome) : Option Circuit :=
  let candidate := transposed.circuit.transpose
  let score := s.settings.metric.score
  if transposed.matrix.isIdentity && score candidate < score direct.circuit then some candidate
  else none

/-- Synthesise a circuit for a matrix. -/
def run (M : ParityMatrix) : Reporting Outcome := do
  let G? ← s.routingGraph M.rows
  let direct ← s.reduceFresh G? M
  if s.settings.triesTranspose && direct.matrix.isIdentity then
    let transposed ← s.reduceFresh G? M.transpose
    match s.cheaperTranspose? direct transposed with
    | some circuit => return { direct with circuit := circuit }
    | none => return direct
  else return direct

/-- Synthesise a chain of square matrices; the steps of the eliminations are reported only where no
placements are searched for. -/
def runChain (Ms : List ParityMatrix) (inputFree outputFree : Bool) : Reporting Solution := do
  match chainStrategy? s.settings.mode, Ms with
  | none, _ => throw (.refused (.invalidConfiguration .notChainable))
  | some _, [] => return Solution.empty
  | some strategy, M :: _ =>
    let G? ← s.routingGraph M.rows
    let engine : Engine :=
      ⟨s.settings.baseMethod.reduce, !s.settings.mode.searchesPlacements, G?,
        s.settings.search s.source⟩
    engine.synthesize strategy Ms inputFree outputFree

end Setup

end Synthesis

end CnotSynthesis
