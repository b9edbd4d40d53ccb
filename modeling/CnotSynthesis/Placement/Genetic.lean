import CnotSynthesis.Placement.Fitness
import CnotSynthesis.Placement.Operators
import CnotSynthesis.Sorting

/-! # Genetic search over placements

A population of placements is kept in ascending order of cost. Every generation adds children of
its members and drops the most expensive placements; dropped ones may go to a small pool, whose
members have one child per generation.

* **`Genetic.Settings`** — sizes and probabilities.
* **`Genetic.State`** — population, pool, number of generations, and the generator of the draws.
* **`Genetic.find`** — a fresh search, **`Genetic.find?`** for any number of qubits;
  **`Genetic.continue?`** — more generations of one. -/

namespace CnotSynthesis.Genetic

open Placement

/-- Settings of a genetic search. -/
structure Settings where
  populationSize : Nat
  /-- The probability that a pair of parents has a child. -/
  crossoverProb : Float
  /-- The probability that two genes of a child are exchanged. -/
  mutationProb : Float
  generations : Nat
  /-- Pairs of parents in each generation; as many as the population by default. -/
  children : Option Nat

namespace Settings

/-- The usual settings. -/
def default : Settings := ⟨30, 0.8, 0.2, 5, none⟩

/-- Size of the pool of dropped placements: the root of the population size, rounded down. -/
def poolSize (s : Settings) : Nat := s.populationSize.toUInt64.toFloat.sqrt.toUInt64.toNat

/-- Pairs of parents in each generation. -/
def pairs (s : Settings) : Nat := s.children.getD s.populationSize

end Settings

/-! ## Individuals -/

/-- A placement and its cost. -/
structure Individual where
  fitness : Nat
  perm : List Nat
deriving DecidableEq, Repr

/-- By cost, then in dictionary order. -/
def Individual.before (a b : Individual) : Bool :=
  a.fitness < b.fitness || (a.fitness == b.fitness && listBefore a.perm b.perm)

/-- A placement with its cost. -/
def evaluate (fitness : List Nat → Nat) (perm : List Nat) : Individual := ⟨fitness perm, perm⟩

/-- A search under way. -/
structure State where
  generator : Generator
  /-- Ascending, without repetitions. -/
  population : List Individual
  /-- Placements that were dropped. -/
  pool : List Individual
  /-- Generations so far. -/
  generation : Nat

namespace State

/-- Nothing is evaluated yet. -/
def start (g : Generator) : State := ⟨g, [], [], 0⟩

/-- The best placement so far. -/
def best? (s : State) : Option Individual := s.population.head?

end State

/-! ## Children -/

/-- The child of two members of the pool, if it has two. -/
def poolChildren (pool : List Individual) : Draw (List (List Nat)) := do
  if pool.length < 2 then return []
  else
    let picks ← Draw.sample pool.length 2
    match pool[picks.getD 0 0]?, pool[picks.getD 1 0]? with
    | some a, some b => return [← crossSlice a.perm b.perm]
    | _, _ => return []

/-- Two different positions out of `n`, each as likely as its weight; if the same one is drawn
twice, the second is drawn from the others. -/
def pickParents (weights : List Float) (n : Nat) : Draw (Nat × Nat) := do
  let first ← Draw.weighted weights
  let second ← Draw.weighted weights
  if second = first then
    let offset ← Draw.below (n - 1)
    return (first, (first + (1 + offset)) % n)
  else return (first, second)

/-- A child of two members, perhaps with two genes exchanged. -/
def makeChild (s : Settings) (weights : List Float) (members : List Individual) :
    Draw (List (List Nat)) := do
  let (i, j) ← pickParents weights members.length
  match members[i]?, members[j]? with
  | some a, some b =>
    let child ← crossSlice a.perm b.perm
    let chance ← Draw.unitFloat
    if chance < s.mutationProb then return [← mutateSwap child] else return [child]
  | _, _ => return []

/-- The children of `k` pairs of parents. -/
def memberChildren (s : Settings) (weights : List Float) (members : List Individual) :
    Nat → Draw (List (List Nat))
  | 0 => return []
  | k + 1 => do
    let chance ← Draw.unitFloat
    if chance ≥ s.crossoverProb then memberChildren s weights members k
    else
      let child ← makeChild s weights members
      return child ++ (← memberChildren s weights members k)

/-- Weights that favour cheap members: one more than the distance to the most expensive one. -/
def parentWeights (members : List Individual) : List Float :=
  let worst := (members.map (·.fitness)).foldl max 0
  members.map fun a => (worst - a.fitness).toUInt64.toFloat + 1.0

/-- The children of a generation. -/
def offspring (s : Settings) (population pool : List Individual) : Draw (List (List Nat)) := do
  let fromPool ← poolChildren pool
  if population.length < 2 then return fromPool
  else return fromPool ++ (← memberChildren s (parentWeights population) population s.pairs)

/-! ## Generations -/

/-- At most `keep` members of the pool, at random if there are more. -/
def thinPool (keep : Nat) (pool : List Individual) : Draw (List Individual) := do
  if keep < pool.length then return (← Draw.sample pool.length keep).filterMap (pool[·]?)
  else return pool

/-- Add evaluated placements to a population. -/
def enrol (population new : List Individual) : List Individual :=
  new.foldl (fun sorted a => insertDistinct Individual.before a sorted) population

/-- One generation, and its report. -/
def step (s : Settings) (fitness : List Nat → Nat) (state : State) : State × Event :=
  let (children, generator) := offspring s state.population state.pool state.generator
  let grown := enrol state.population (children.map (evaluate fitness))
  let population := grown.take s.populationSize
  let dropped := (grown.drop s.populationSize).reverse
  let (pool, generator) := thinPool s.poolSize (state.pool ++ dropped) generator
  let best := (population.head?.map (·.fitness)).getD infeasible
  (⟨generator, population, pool, state.generation + 1⟩, .generation state.generation best)

/-- The given number of generations, and their reports. -/
def evolve (s : Settings) (fitness : List Nat → Nat) : Nat → State → State × List Event
  | 0, state => (state, [])
  | k + 1, state =>
    let (state, event) := step s fitness state
    let (state, events) := evolve s fitness k state
    (state, event :: events)

/-- More generations; none when there is no population. -/
def continue? (s : Settings) (fitness : List Nat → Nat) (generations : Nat) (state : State) :
    State × List Event × Option (List Nat) :=
  if state.population.isEmpty then (state, [], none)
  else
    let (state, events) := evolve s fitness generations state
    (state, events, state.best?.map (·.perm))

/-- A first population: the identity and random placements, drawn one after the other. -/
def populate (s : Settings) (fitness : List Nat → Nat) (n : Nat) (g : Generator) : State :=
  let (others, g) := Draw.times (Draw.permutation n) (s.populationSize - 1) g
  let population := enrol [] ((List.range n :: others).map (evaluate fitness))
  ⟨g, population, population.reverse.take s.poolSize, 0⟩

/-- A fresh search over the placements of `n` qubits: the best placement, nothing if the population
was not allowed any. -/
def find (s : Settings) (fitness : List Nat → Nat) (n generations : Nat) (state : State) :
    State × List Event × List Nat :=
  let (state, events, best) :=
    continue? s fitness generations (populate s fitness n state.generator)
  (state, events, best.getD [])

/-- As `find`, refusing a number of qubits that cannot be held: a placement is listed at once, while
the population grows by one placement at a time. The search before is given up either way. -/
def find? (s : Settings) (fitness : List Nat → Nat) (n generations : Nat) (state : State) :
    State × List Event × Except Breach (List Nat) :=
  match requireRoom n with
  | .error breach => (State.start state.generator, [], .error breach)
  | .ok _ =>
    let (state, events, best) := find s fitness n generations state
    (state, events, .ok best)

end CnotSynthesis.Genetic
