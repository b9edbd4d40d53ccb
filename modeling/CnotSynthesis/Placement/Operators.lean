import CnotSynthesis.Permutation
import CnotSynthesis.Random.Ensemble

/-! # New placements from old ones

A placement is a permutation, its elements are called genes.

* **`crossSlice first second`** — a slice of `first`, the other genes in their order in
  `second`.
* **`crossPositions particle best k`** — `best` at `k` positions, the other genes in their order in
  `particle`.
* **`mutateShuffle p k`** — the genes at `k` positions rearranged.
* **`mutateSwap p`** — two genes exchanged.

What is drawn (`sliceBounds`, `Draw.sample`, `Draw.shuffle`) is kept apart from what is made of it
(`sliceChild`, `mixedChild`, `rearranged`). The forms with a question mark accept any lists, and
break off where a gene is no position. -/

namespace CnotSynthesis.Placement

/-! ## Filling slots -/

/-- Fill the empty slots with genes in order; a slot for which none is left stays unplaced. -/
def fillSlots : List (Option Nat) → List Nat → List Nat
  | [], _ => []
  | some g :: slots, genes => g :: fillSlots slots genes
  | none :: slots, [] => unplaced :: fillSlots slots []
  | none :: slots, g :: genes => g :: fillSlots slots genes

/-- The genes of the list that are not used yet, each once. -/
def freshGenes (used : List Nat) : List Nat → List Nat
  | [] => []
  | g :: rest =>
    if used.contains g then freshGenes used rest else g :: freshGenes (g :: used) rest

/-! ## A slice of one placement -/

/-- The positions from `start` up to `stop` of `first`, the other genes as in `second`. -/
def sliceChild (first second : List Nat) (start stop : Nat) : List Nat :=
  let slots := first.zipIdx.map fun (g, i) => if start ≤ i ∧ i < stop then some g else none
  fillSlots slots (freshGenes (slots.filterMap id) second)

/-- The ends of a slice of `n` positions: it begins in the first half and may be empty. -/
def sliceBounds (n : Nat) : Draw (Nat × Nat) := do
  let start ← Draw.below (n / 2)
  let length ← Draw.below (n - start)
  return (start, start + length)

/-- A slice of `first`, the other genes in their order in `second`. -/
def crossSlice (first second : List Nat) : Draw (List Nat) := do
  if first.length < 2 then return first
  else
    let (start, stop) ← sliceBounds first.length
    return sliceChild first second start stop

/-- As `crossSlice`, of any two lists: the genes of the slice and all genes of `second` must be
positions of `first`. -/
def crossSlice? (first second : List Nat) : Draw (Except Breach (List Nat)) := do
  if first.length < 2 then return .ok first
  else
    let (start, stop) ← sliceBounds first.length
    let slice := (first.take stop).drop start
    if (slice ++ second).all (· < first.length) then
      return .ok (sliceChild first second start stop)
    else return .error .position

/-! ## Some positions of one placement -/

/-- The genes of `best` at the given positions, the other genes as in `particle`. -/
def mixedChild (particle best positions : List Nat) : List Nat :=
  let slots := (List.range particle.length).map fun i =>
    if positions.contains i then best[i]? else none
  let used := slots.filterMap id
  fillSlots slots (particle.filter fun g => !used.contains g)

/-- The genes of `best` at `k` positions, the other genes in their order in `particle`. -/
def crossPositions (particle best : List Nat) (k : Nat) : Draw (List Nat) := do
  let positions ← Draw.sample particle.length (min k particle.length)
  return mixedChild particle best positions

/-- Whether a gene that is no position is met on the way to the next `need` unused genes. -/
def meetsStray (size : Nat) (used : List Nat) : Nat → List Nat → Bool
  | 0, _ => false
  | _ + 1, [] => false
  | need + 1, g :: rest =>
    if size ≤ g then true
    else if used.contains g then meetsStray size used (need + 1) rest
    else meetsStray size used need rest

/-- As `crossPositions`, of any two lists: `best` must have positions at the places that are copied,
and the genes of `particle` that are looked at must be positions. -/
def crossPositions? (particle best : List Nat) (k : Nat) : Draw (Except Breach (List Nat)) := do
  let n := particle.length
  let positions ← Draw.sample n (min k n)
  let copied := positions.map fun i => best.getD i unplaced
  if copied.any (n ≤ ·) || meetsStray n copied (n - positions.length) particle then
    return .error .position
  else return .ok (mixedChild particle best positions)

/-! ## Rearranging one placement -/

/-- The gene at the `order[i]`-th of the positions moved to the `i`-th of them. -/
def rearranged (perm positions order : List Nat) : List Nat :=
  (positions.zip order).foldl
    (fun out (slot, k) => out.set slot (perm.getD (positions.getD k 0) 0)) perm

/-- The genes at `k` positions rearranged among themselves. -/
def mutateShuffle (perm : List Nat) (k : Nat) : Draw (List Nat) := do
  let k := min k perm.length
  let positions ← Draw.sample perm.length k
  let order ← Draw.shuffle (List.range k)
  return rearranged perm positions order

/-- Two genes exchanged, if there are two. -/
def mutateSwap (perm : List Nat) : Draw (List Nat) := do
  if perm.length < 2 then return perm
  else
    let picks ← Draw.sample perm.length 2
    return swapAt perm (picks.getD 0 0) (picks.getD 1 0)

end CnotSynthesis.Placement
