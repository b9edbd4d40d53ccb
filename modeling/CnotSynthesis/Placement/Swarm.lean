import CnotSynthesis.Placement.Fitness
import CnotSynthesis.Placement.Operators
import CnotSynthesis.Sorting

/-! # Particle swarms over placements

Every particle sits on a placement. A step function says what is found there, at what cost, and
where the particle moves. A particle that neither improves nor moves is shaken: some genes are
rearranged, some taken from its own best placement, some from the best placement of the swarm.

* **`Swarm.Settings`** — the number of particles and how strongly they are shaken.
* **`Swarm.Step σ`** — what a step function says about a placement.
* **`Swarm.find`** — the best placement met by any particle, **`Swarm.find?`** for any numbers of
  particles and qubits. -/

namespace CnotSynthesis.Swarm

open Placement

/-- Settings of a swarm search. -/
structure Settings where
  swarmSize : Nat
  steps : Nat
  /-- The part of a shaken placement that is taken from the best one of the swarm. -/
  swarmShare : Float
  /-- The part that is taken from the particle's own best placement. -/
  personalShare : Float
  /-- The part that is rearranged. -/
  mutation : Float

/-- The usual settings. -/
def Settings.default : Settings := ⟨15, 5, 0.4, 0.3, 0.2⟩

/-- The number of positions in a share of `n`, rounded down; none for a negative share. -/
def positionsOf (share : Float) (n : Nat) : Nat := (share * n.toUInt64.toFloat).toUInt64.toNat

/-- What is found at a placement. -/
structure Step (σ : Type) where
  /-- Where the particle moves. -/
  next : List Nat
  solution : σ
  cost : Nat
  /-- What happened on the way. -/
  events : List Event

/-- A placement, what was found there, and at what cost. -/
structure Finding (σ : Type) where
  point : List Nat
  solution : σ
  cost : Nat

/-- A particle. -/
structure Particle (σ : Type) where
  generator : Generator
  current : List Nat
  /-- The best finding so far. -/
  best : Option (Finding σ)

variable {σ : Type}

/-! ## One particle -/

/-- The placement of `n` qubits that a shaken particle moves to: rearranged, then drawn towards its
own best placement and towards that of the swarm. -/
def shake (s : Settings) (n : Nat) (current personal leader : List Nat) : Draw (List Nat) := do
  let shaken ← mutateShuffle current (positionsOf s.mutation n)
  let shaken ← crossPositions shaken personal (positionsOf s.personalShare n)
  crossPositions shaken leader (positionsOf s.swarmShare n)

/-- Whether a cost is at most the best one so far. -/
def improves (cost : Nat) : Option (Finding σ) → Bool
  | none => true
  | some best => cost ≤ best.cost

/-- Move a particle, given the best placement of the swarm before this step. -/
def move (s : Settings) (step : List Nat → Step σ) (n : Nat) (leader : List Nat) (p : Particle σ) :
    Particle σ × List Event :=
  let result := step p.current
  if improves result.cost p.best then
    ({ p with current := result.next, best := some ⟨p.current, result.solution, result.cost⟩ },
      result.events)
  else if result.next = p.current then
    let personal := (p.best.map (·.point)).getD []
    let (current, generator) := shake s n p.current personal leader p.generator
    ({ p with current, generator }, result.events)
  else ({ p with current := result.next }, result.events)

/-! ## The swarm -/

/-- Particle `i` of a swarm: the first one starts at the identity, the others at random. -/
def launch (source : Nat → Generator) (seed n i : Nat) : Particle σ :=
  let g := source ((seed + i) % UInt64.size)
  if i = 0 then ⟨g, List.range n, none⟩
  else
    let (current, g) := Draw.permutation n g
    ⟨g, current, none⟩

/-- The first of the best findings of the particles. -/
def leader? (particles : List (Particle σ)) : Option (Finding σ) :=
  leastBy (fun a b => a.cost < b.cost) (particles.filterMap (·.best))

/-- The finding of the swarm after the particles have moved: replaced only by a better one. -/
def advance (found : Option (Finding σ)) (particles : List (Particle σ)) : Option (Finding σ) :=
  match found, leader? particles with
  | none, new => new
  | some old, none => some old
  | some old, some new => if new.cost < old.cost then some new else some old

/-- The given number of steps from step number `index` on. -/
def search (s : Settings) (step : List Nat → Step σ) (n : Nat) :
    Nat → Nat → List (Particle σ) → Option (Finding σ) → Option (Finding σ) × List Event
  | 0, _, _, found => (found, [])
  | k + 1, index, particles, found =>
    let leader := (found.map (·.point)).getD (List.range n)
    let moved := particles.map (move s step n leader)
    let particles := moved.map (·.1)
    let found := advance found particles
    let report := Event.swarm index ((found.map (·.cost)).getD infeasible)
    let (final, events) := search s step n k (index + 1) particles found
    (final, moved.flatMap (·.2) ++ report :: events)

/-- Search the placements of `n` qubits for the given number of steps, at least one. -/
def find (s : Settings) (source : Nat → Generator) (seed : Nat) (step : List Nat → Step σ)
    (default : σ) (n steps : Nat) : Finding σ × List Event :=
  let particles := (List.range (max s.swarmSize 1)).map (launch source seed n)
  let (found, events) := search s step n (max steps 1) 0 particles none
  (found.getD ⟨List.range n, default, infeasible⟩, events)

/-- As `find`, refusing numbers of particles or qubits that cannot be held: all particles are
launched at once, and a placement is listed at once. -/
def find? (s : Settings) (source : Nat → Generator) (seed : Nat) (step : List Nat → Step σ)
    (default : σ) (n steps : Nat) : Except Breach (Finding σ × List Event) := do
  requireRoom s.swarmSize
  requireRoom n
  return find s source seed step default n steps

end CnotSynthesis.Swarm
