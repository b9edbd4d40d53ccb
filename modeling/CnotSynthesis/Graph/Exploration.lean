/-! # Walking through a graph

A graph is given by the list `next v` of neighbours of each vertex.

* **`explore next stop`** — breadth first: vertices leave a queue in order and let their unseen
  neighbours in, one step further than themselves. It ends at the first vertex that satisfies
  `stop`, or when the queue is empty.
* **`Exploration.branch v`** — the edges by which `v` was found, outermost first.
* **`postOrder next v`** — depth first: a vertex is listed after everything found through it. -/

namespace CnotSynthesis

/-- A breadth-first walk under way. -/
structure Exploration where
  /-- Vertices found and not yet visited, oldest first. -/
  queue : List Nat
  /-- Vertices found so far. -/
  seen : List Nat
  /-- Each vertex found from another one, with that one. -/
  parent : List (Nat × Nat)
  /-- Each vertex found, with the number of steps to it. -/
  steps : List (Nat × Nat)

namespace Exploration

/-- Start from several vertices at once. -/
def start (sources : List Nat) : Exploration :=
  { queue := sources, seen := sources, parent := [], steps := sources.map (·, 0) }

/-- The number of steps to a vertex that has been found. -/
def stepsTo (e : Exploration) (v : Nat) : Option Nat := e.steps.lookup v

/-- Visit `v`: its unseen neighbours join the queue, one step further than `v`. -/
def visit (next : Nat → List Nat) (e : Exploration) (v : Nat) : Exploration :=
  let found := (next v).filter fun u => !e.seen.contains u
  let further := (e.stepsTo v).getD 0 + 1
  { queue := e.queue ++ found
    seen := found ++ e.seen
    parent := found.map (·, v) ++ e.parent
    steps := found.map (·, further) ++ e.steps }

/-- Visit up to `fuel` vertices of the queue, until one satisfies `stop`. -/
def run (next : Nat → List Nat) (stop : Nat → Bool) : Nat → Exploration → Exploration × Option Nat
  | 0, e => (e, none)
  | fuel + 1, e =>
    match e.queue with
    | [] => (e, none)
    | v :: rest =>
      if stop v then (e, some v) else run next stop fuel (visit next { e with queue := rest } v)

/-- Climb from `v` to a source, for at most `fuel` edges; `below` are the edges from `v` on. -/
def climb (parent : List (Nat × Nat)) : Nat → Nat → List (Nat × Nat) → List (Nat × Nat)
  | 0, _, below => below
  | fuel + 1, v, below =>
    match parent.lookup v with
    | none => below
    | some p => climb parent fuel p ((p, v) :: below)

/-- The edges `(parent, child)` from a source down to `v`. -/
def branch (e : Exploration) (v : Nat) : List (Nat × Nat) := climb e.parent e.parent.length v []

end Exploration

/-- Walk breadth first from `sources` through at most `size` vertices, until one satisfies
`stop`. -/
def explore (next : Nat → List Nat) (stop : Nat → Bool) (size : Nat) (sources : List Nat) :
    Exploration × Option Nat :=
  Exploration.run next stop size (Exploration.start sources)

/-- The vertices that can be reached from `v`. -/
def reach (next : Nat → List Nat) (size v : Nat) : List Nat :=
  (explore next (fun _ => false) size [v]).1.seen

/-- Visit `v` and what can be found through it, for at most `fuel` levels: the vertices seen and the
vertices finished, in order. -/
def finishFrom (next : Nat → List Nat) : Nat → Nat → List Nat × List Nat → List Nat × List Nat
  | 0, _, state => state
  | fuel + 1, v, (seen, finished) =>
    if seen.contains v then (seen, finished)
    else
      let (seen, finished) :=
        (next v).foldl (fun state u => finishFrom next fuel u state) (v :: seen, finished)
      (seen, finished ++ [v])

/-- The vertices found depth first from `v`, each after everything found through it. -/
def postOrder (next : Nat → List Nat) (size v : Nat) : List Nat :=
  (finishFrom next (size + 1) v ([], [])).2

end CnotSynthesis
