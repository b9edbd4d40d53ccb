import CnotSynthesis.Placement.Genetic
import CnotSynthesis.Placement.Swarm

/-! # Chains of matrices

For matrices `M_0, …, M_{k-1}` a chain has placements `π_0, …, π_k` and circuits `C_i` for `M_i`
with rows relabelled by `π_{i+1}` and columns by `π_i`: the output placement of one circuit is the
input placement of the next.

* **`Chain.Engine`** — what a chain is made with: an elimination, a graph, the settings of the
  search.
* **`Engine.pass`** — one pass over the matrices, each placement searched for or left in place.
* **`Engine.synthesize strategy`** — the chain that a strategy finds. -/

namespace CnotSynthesis

/-- Settings of a search over placements. -/
structure SearchSettings where
  metric : Metric
  genetic : Genetic.Settings
  swarm : Swarm.Settings
  seed : Nat
  /-- The generator of each seed. -/
  source : Nat → Generator := Generator.ofSeed

/-- The usual settings. -/
def SearchSettings.default : SearchSettings where
  metric := .combined
  genetic := Genetic.Settings.default
  swarm := Swarm.Settings.default
  seed := 0

/-- The generator for element number `i`. -/
def SearchSettings.generator (s : SearchSettings) (i : Nat) : Generator :=
  s.source ((s.seed + i) % UInt64.size)

namespace Chain

/-- How placements between consecutive matrices are chosen. -/
inductive Strategy where
  /-- Every placement is the identity. -/
  | basic
  /-- A genetic search for each matrix fixes the next placement. -/
  | genetic
  /-- A swarm over the first placement, improved by passes forth and back; needs both ends free, and
  is a genetic search otherwise. -/
  | swarm
deriving DecidableEq, Repr

/-- The circuits of a chain. -/
structure Solution where
  circuits : List Circuit
  /-- The placements, one more than circuits. -/
  placements : List (List Nat)
  /-- The sum of the costs, at most `infeasible`. -/
  score : Nat

/-- The chain of no matrices. -/
def Solution.empty : Solution := ⟨[], [], 0⟩

/-- What a chain is made with. -/
structure Engine where
  reduce : Reducer
  /-- Whether the steps of the eliminations are reported. -/
  reportsReductions : Bool
  graph : Option CouplingGraph
  search : SearchSettings

/-- A computation that may fail, with the events reported so far. -/
abbrev Reporting := ExceptT (Fault SynthesisError) (StateM (List Event))

/-- Report events. -/
def report (events : List Event) : Reporting Unit := modify (· ++ events)

/-- A step of the algebra that may be refused. -/
def algebraic {α : Type} (r : Except AlgebraError α) : Reporting α :=
  match r with
  | .ok a => return a
  | .error e => throw (.refused (.algebra e))

/-- A step under a contract that may be broken. -/
def contractual {α : Type} (r : Except Breach α) : Reporting α :=
  match r with
  | .ok a => return a
  | .error breach => throw (.broken breach)

/-- Which ends of a link are searched for. -/
structure Freedom where
  rows : Bool
  columns : Bool

/-- One matrix of a chain. -/
structure Link where
  circuit : Circuit
  /-- The placement of the columns. -/
  input : List Nat
  /-- The placement of the rows. -/
  output : List Nat

namespace Engine

variable (e : Engine)

/-- Search a placement for the free ends of element number `index`. The identity is tried first. -/
def place (index n : Nat) (free : Freedom) (M : ParityMatrix) : Reporting (List Nat) := do
  let task : Placement.Task := ⟨M, e.reduce, e.graph, e.search.metric, free.rows, free.columns⟩
  contractual (task.check (List.range n))
  let start := Genetic.State.start (e.search.generator index)
  let (_, events, placement) :=
    Genetic.find e.search.genetic task.fitness n e.search.genetic.generations start
  report events
  return placement

/-- Reduce an element of a chain on `n` qubits, relabelled by the given placements; its columns have
been placed by `current` before. -/
def reduceLink (n : Nat) (current rowPerm colPerm : List Nat) (M : ParityMatrix) :
    Reporting Link := do
  let working ← algebraic (M.relabel? rowPerm colPerm)
  let run := e.reduce e.graph working (some (Circuit.empty n))
  if e.reportsReductions then report run.events
  let _ ← (run.outcome : Except (Fault SynthesisError) Nat)
  let input := Permutation.compose current colPerm
  let circuit ← algebraic ((run.circuit.getD (Circuit.empty n)).setLayout ⟨rowPerm, input⟩)
  return ⟨circuit, input, rowPerm⟩

/-- Synthesise element number `index` of a chain on `n` qubits, whose columns are placed by
`current` unless they are free. -/
def link (index n : Nat) (search : Bool) (free : Freedom) (current : List Nat) (M : ParityMatrix) :
    Reporting Link := do
  let identity := List.range n
  let relabelled ← algebraic (M.relabel? identity current)
  let placement ←
    if search && (free.rows || free.columns) then e.place index n free relabelled
    else pure identity
  e.reduceLink n current (if free.rows then placement else identity)
    (if free.columns then placement else identity) relabelled

/-- The elements of a chain from number `index` on. The columns of the first one are free if
`columnsFree`, the rows of the last one if `outputFree`; those between are always. -/
def linksFrom (n : Nat) (search outputFree : Bool) :
    Nat → Bool → List Nat → List ParityMatrix → Reporting Solution
  | _, _, _, [] => return Solution.empty
  | index, columnsFree, current, M :: rest => do
    let free : Freedom := ⟨!rest.isEmpty || outputFree, columnsFree⟩
    let l ← e.link index n search free current M
    let tail ← linksFrom n search outputFree (index + 1) false l.output rest
    return {
      circuits := l.circuit :: tail.circuits
      placements := (if columnsFree then [l.input] else []) ++ l.output :: tail.placements
      score := min (e.search.metric.score l.circuit + tail.score) infeasible }

/-- One pass over the matrices, from the placement `initial`. -/
def pass (search inputFree outputFree : Bool) (initial : List Nat) (Ms : List ParityMatrix) :
    Reporting Solution := do
  let links ← e.linksFrom initial.length search outputFree 0 inputFree initial Ms
  if inputFree then return links
  else return { links with placements := initial :: links.placements }

/-! ## Swarms -/

/-- A pass forth from a placement and a pass back over the transposed matrices: where the pass back
ends, and the chain of the pass forth. -/
def forthAndBack (Ms : List ParityMatrix) (placement : List Nat) :
    Reporting (List Nat × Solution) := do
  let forth ← e.pass true false true placement Ms
  let last := forth.placements.getLast?.getD []
  let back ← e.pass true false true last (Ms.reverse.map ParityMatrix.transpose)
  return (back.placements.getLast?.getD placement, forth)

/-- Going forth and back as a step of a swarm: one that fails has no finite cost and does not
move. -/
def swarmStep (Ms : List ParityMatrix) (placement : List Nat) : Swarm.Step Solution :=
  match (e.forthAndBack Ms placement).run.run [] with
  | (.ok (next, forth), events) => ⟨next, forth, forth.score, events⟩
  | (.error _, events) => ⟨placement, Solution.empty, infeasible, events⟩

/-- The best chain that a swarm finds on `n` qubits. Going forth and back once before shows
failures that the swarm would take for high costs. -/
def swarm (n : Nat) (Ms : List ParityMatrix) : Reporting Solution := do
  let _ ← e.forthAndBack Ms (List.range n)
  let (found, events) ← contractual (Swarm.find? e.search.swarm e.search.source e.search.seed
    (e.swarmStep Ms) Solution.empty n e.search.swarm.steps)
  report events
  return found.solution

/-! ## Strategies -/

/-- Check that all matrices are of one size. -/
def checkSizes (n : Nat) : List ParityMatrix → Reporting Unit
  | [] => return ()
  | M :: rest =>
    if M.rows = n ∧ M.cols = n then checkSizes n rest
    else throw (.refused (.algebra (.notOfSize n M.rows M.cols)))

/-- The chain that a strategy finds; `inputFree` and `outputFree` say whether the placements at the
ends may differ from the identity. -/
def synthesize (strategy : Strategy) (Ms : List ParityMatrix) (inputFree outputFree : Bool) :
    Reporting Solution := do
  match Ms with
  | [] => return Solution.empty
  | M :: _ =>
    let n := M.rows
    checkSizes n Ms
    match strategy with
    | .basic => e.pass false false false (List.range n) Ms
    | .genetic => e.pass true inputFree outputFree (List.range n) Ms
    | .swarm =>
      if inputFree && outputFree then e.swarm n Ms
      else e.pass true inputFree outputFree (List.range n) Ms

end Engine

end Chain

end CnotSynthesis
