import CnotSynthesis.Elimination.BestFirst
import CnotSynthesis.Elimination.Steiner
import CnotSynthesis.Proofs.Elimination.Transcript
import CnotSynthesis.Proofs.Elimination.TreePasses

/-! # Eliminations on a coupling graph add coupled rows

* **`G.Coupled`** — the row additions between coupled qubits.
* **`Reduction.proceeds_steiner`**, **`Reduction.proceeds_eliminateAll`** — the eliminations along
  Steiner trees and by vertices take such steps only, whether they succeed or not.
* **`Prospect.advance_eq`** — a prospect is taken further by what the reduction does to its matrix,
  and its circuit, read backwards, is the list of the row additions so far.
* **`bestFirst_coupled`** — so are the row additions that a best-first elimination finds.
* **`Routed G? n`**, **`Reduction.steps_rowCol`**, **`Reduction.steps_permRowCol`** — the same for
  eliminations that are given a graph or none. -/

namespace CnotSynthesis

/-- A row addition between coupled qubits. -/
def CouplingGraph.Coupled (G : CouplingGraph) (target source : ℕ) : Prop :=
  G.hasEdge target source = true

namespace Reduction

open Work

variable {G : CouplingGraph}

/-- A computed tree has coupled edges. -/
theorem coupled_of_along {root : ℕ} {terminals usable extra : List ℕ} {t : SteinerTree}
    (h : G.steinerTreeWith root terminals usable extra = .ok t) {a b : ℕ} (hab : t.Along a b) :
    G.Coupled a b := by
  obtain ⟨hspans, _, _⟩ := CouplingGraph.steinerTreeWith_ok h
  rcases hab with hab | hab
  · exact hspans.coupled _ hab
  · exact (G.hasEdge_comm a b).trans (hspans.coupled _ hab)

/-! ## Along Steiner trees -/

/-- Clearing below a pivot follows couplings. -/
theorem proceeds_clearBelow (column pivot : ℕ) (terminals usable : List ℕ) :
    Proceeds G.Coupled (clearBelow G column pivot terminals usable) := by
  refine proceeds_attempt_bind fun t ht => Proceeds.bind (fun w => ?_) fun _ => proceeds_report _
  exact (proceeds_lower t column w).mono fun a b => coupled_of_along ht

/-- A tree for the rows above a pivot is a Steiner tree with detours. -/
theorem treeAbove_ok {root : ℕ} {terminals earlier : List ℕ} {t : SteinerTree}
    (h : treeAbove G root terminals earlier = .ok t) :
    ∃ extra, detours G root earlier terminals = .ok extra ∧
      G.steinerTreeWith root terminals earlier extra = .ok t := by
  unfold treeAbove at h
  cases hextra : detours G root earlier terminals with
  | error e =>
    rw [hextra] at h
    cases h
  | ok extra =>
    rw [hextra] at h
    exact ⟨extra, rfl, h⟩

/-- Clearing above a pivot follows couplings. -/
theorem proceeds_clearAbove (column pivot : ℕ) (earlier : List ℕ) :
    Proceeds G.Coupled (clearAbove G column pivot earlier) := by
  refine proceeds_matrix.bind fun M => ?_
  dsimp only
  split
  · exact proceeds_pure ()
  · refine proceeds_attempt_bind fun t ht w => ?_
    obtain ⟨extra, _, ht⟩ := treeAbove_ok ht
    exact (proceeds_upper t column w).mono fun a b => coupled_of_along ht

/-- The downward pass by row numbers follows couplings. -/
theorem proceeds_descend (k : ℕ) : ∀ c pivot, Proceeds G.Coupled (descend G k c pivot) := by
  induction k with
  | zero => exact fun _ _ => proceeds_pure []
  | succ k ih =>
    intro c pivot
    refine proceeds_matrix.bind fun M => ?_
    split
    · exact proceeds_pure []
    · dsimp only
      split
      · exact ih (c + 1) pivot
      · refine (proceeds_clearBelow c pivot _ _).bind fun _ => ?_
        exact (ih (c + 1) (pivot + 1)).bind fun _ => proceeds_pure _

/-- The upward pass by row numbers follows couplings. -/
theorem proceeds_ascend (pivots : List (ℕ × ℕ)) : Proceeds G.Coupled (ascend G pivots) := by
  induction pivots with
  | nil => exact proceeds_pure ()
  | cons cp pivots ih => exact (proceeds_clearAbove _ _ _).bind fun _ => ih

/-- Both passes by row numbers follow couplings. -/
theorem proceeds_steinerByRow (full : Bool) : Proceeds G.Coupled (steinerByRow G full) := by
  refine proceeds_matrix.bind fun M => (proceeds_descend _ _ _).bind fun columns => ?_
  cases full with
  | true => exact (proceeds_ascend _).bind fun _ => proceeds_pure _
  | false => exact proceeds_pure _

/-- The downward pass in the order of the graph follows couplings. -/
theorem proceeds_descendAlong (order : List ℕ) : Proceeds G.Coupled (descendAlong G order) := by
  induction order with
  | nil => exact proceeds_pure ()
  | cons p rest ih =>
    refine proceeds_matrix.bind fun M => ?_
    dsimp only
    split
    · exact proceeds_fail _
    · exact (proceeds_clearBelow _ _ _ _).bind fun _ => ih

/-- The upward pass in the order of the graph follows couplings. -/
theorem proceeds_ascendAlong (order : List ℕ) : Proceeds G.Coupled (ascendAlong G order) := by
  induction order with
  | nil => exact proceeds_pure ()
  | cons p earlier ih => exact (proceeds_clearAbove _ _ _).bind fun _ => ih

/-- Both passes in the order of the graph follow couplings. -/
theorem proceeds_steinerAlongOrder (full : Bool) :
    Proceeds G.Coupled (steinerAlongOrder G full) := by
  refine (proceeds_descendAlong _).bind fun _ => ?_
  cases full with
  | true => exact (proceeds_ascendAlong _).bind fun _ => proceeds_pure _
  | false => exact proceeds_pure _

/-- **Elimination along Steiner trees adds coupled rows.** -/
theorem proceeds_steiner (order : PivotOrder) (full : Bool) :
    Proceeds G.Coupled (steiner order full G) := by
  refine proceeds_matrix.bind fun M => ?_
  split
  · exact proceeds_steinerAlongOrder full
  · exact proceeds_steinerByRow full

/-! ## By vertices -/

/-- Clearing a column follows couplings. -/
theorem proceeds_clearColumn (row column : ℕ) (rows : List ℕ) :
    Proceeds G.Coupled (clearColumn G row column rows) := by
  refine proceeds_matrix.bind fun M => ?_
  dsimp only
  generalize (if (M.colOnes column).contains row then M.colOnes column
    else M.colOnes column ++ [row]) = terminals
  split
  · exact proceeds_fail _
  · split
    · refine proceeds_attempt_bind fun t ht w => ?_
      exact (proceeds_lower t column w).mono fun a b => coupled_of_along ht
    · split
      · exact proceeds_pure ()
      · exact proceeds_fail _

/-- Clearing a row follows couplings. -/
theorem proceeds_clearRow (row : ℕ) (rows restColumns : List ℕ) :
    Proceeds G.Coupled (clearRow G row rows restColumns) := by
  refine proceeds_matrix.bind fun M => ?_
  split
  · exact proceeds_pure ()
  · refine proceeds_attempt_bind fun selected _ => proceeds_attempt_bind fun t ht => ?_
    refine Proceeds.bind (fun w => ?_) fun _ => proceeds_matrix.bind fun M => ?_
    · exact (proceeds_collect t selected w).mono fun a b => coupled_of_along ht
    · cases restColumns.find? (M.entry row) with
      | some c => exact proceeds_fail _
      | none => exact proceeds_pure ()

/-- Clearing a pair follows couplings. -/
theorem proceeds_clearPair (row column : ℕ) (p : Remaining) :
    Proceeds G.Coupled (clearPair G row column p) :=
  (proceeds_clearColumn _ _ _).bind fun _ => proceeds_clearRow _ _ _

/-- Finishing adds no row. -/
theorem proceeds_finish {E : ℕ → ℕ → Prop} (p : Remaining) : Proceeds E (finish p) := by
  unfold finish
  split
  · refine proceeds_matrix.bind fun M => ?_
    split
    · exact (proceeds_report _).bind fun _ => proceeds_pure _
    · exact proceeds_fail _
  · exact proceeds_pure _

/-- Eliminating pair after pair follows couplings. -/
theorem proceeds_eliminateFrom (choose : PairStrategy) (fuel : ℕ) :
    ∀ p, Proceeds G.Coupled (eliminateFrom G choose fuel p) := by
  induction fuel with
  | zero => exact proceeds_finish
  | succ fuel ih =>
    intro p
    unfold eliminateFrom
    split
    · exact proceeds_finish p
    · refine proceeds_matrix.bind fun M => ?_
      cases choose M p (G.removable p.rows) with
      | none => exact proceeds_fail _
      | some pair =>
        refine (proceeds_clearPair pair.1 pair.2 p).bind fun _ => ?_
        exact (proceeds_report _).bind fun _ => ih _

/-- **Vertex elimination adds coupled rows.** -/
theorem proceeds_eliminateAll (choose : PairStrategy) (p : Remaining) :
    Proceeds G.Coupled (eliminateAll G choose p) := proceeds_eliminateFrom choose _ p

end Reduction

/-! ## Best first -/

section BestFirst

open Work

variable {G : CouplingGraph} {M : ParityMatrix}

namespace Prospect

/-- The row additions so far, which the circuit lists backwards. -/
def additions (p : Prospect) : List RowAddition := p.circuit.gates.reverse.map Gate.addition

/-- A prospect costs as many gates as it made row additions. -/
theorem length_additions (p : Prospect) : p.additions.length = p.cost := by
  simp [additions, cost, Circuit.count]

/-- Row additions recorded in front come last. -/
theorem additions_prepend {p q : Prospect} {ops : List RowAddition}
    (h : q.circuit = p.circuit.prepend ops) : q.additions = p.additions ++ ops := by
  unfold additions
  rw [h, Circuit.reverse_additions_prepend]

section Advancing

variable {α : Type} (p : Prospect) (r : Reduction α)

/-- What becomes of a prospect when its circuit accepts every row addition. -/
theorem advance_of_accepted
    (h : (transcribe recordIn (r.exec (.start p.matrix)).2.events (some p.circuit)).rejection =
      none) :
    p.advance r = (r.exec (.start p.matrix)).1.map fun a => (a, (r.exec (.start p.matrix)).2.matrix,
      p.circuit.prepend (rowAdditions (r.exec (.start p.matrix)).2.events)) := by
  have hmatrix := (r.steps_exec (.start p.matrix)).explains
  have hcompanion :=
    (transcribe_recordIn (r.exec (.start p.matrix)).2.events (some p.circuit)).companion
  unfold advance
  rw [Script.runOn_recorder]
  rw [transcribe_events_eq h] at hcompanion ⊢
  rw [hcompanion, ← hmatrix]
  simp only [Transcript.outcome, h]
  cases (r.exec (.start p.matrix)).1 <;> rfl

/-- A row addition that the circuit rejects is an error of the prospect. -/
theorem advance_of_rejected {e : AlgebraError}
    (h : (transcribe recordIn (r.exec (.start p.matrix)).2.events (some p.circuit)).rejection =
      some e) : p.advance r = .error (.algebra e) := by
  unfold advance
  rw [Script.runOn_recorder]
  simp only [Transcript.outcome, h]

end Advancing

variable {p q : Prospect}

/-- **A prospect taken further** goes through the row additions that the reduction makes from the
matrix alone. -/
theorem advance_ok {α : Type} {r : Reduction α} {a : α} {N : ParityMatrix} {d : Circuit}
    (h : p.advance r = .ok (a, N, d)) : ∃ w, r.exec (.start p.matrix) = (.ok a, w) ∧
      N = w.matrix ∧ d = p.circuit.prepend (rowAdditions w.events) := by
  cases hreject : (transcribe recordIn (r.exec (.start p.matrix)).2.events
      (some p.circuit)).rejection with
  | some e =>
    rw [p.advance_of_rejected r hreject] at h
    cases h
  | none =>
    rw [p.advance_of_accepted r hreject] at h
    rcases hexec : r.exec (.start p.matrix) with ⟨_ | b, w⟩
    · rw [hexec] at h
      cases h
    · rw [hexec] at h
      cases h
      exact ⟨w, rfl, rfl, rfl⟩

/-- **A circuit with the qubits of the graph as wires** accepts what a reduction along couplings
does. -/
theorem advance_eq {α : Type} {r : Reduction α} (hwires : p.circuit.qubits = G.size)
    (hr : r.Proceeds G.Coupled) :
    p.advance r = (r.exec (.start p.matrix)).1.map fun a => (a, (r.exec (.start p.matrix)).2.matrix,
      p.circuit.prepend (rowAdditions (r.exec (.start p.matrix)).2.events)) := by
  refine p.advance_of_accepted r (transcribe_recordIn_of_isProper ?_)
  rintro _ ⟨⟩ op hop
  have hcoupled := (hr.exists_addRows p.matrix).1 op hop
  obtain ⟨ht, hs⟩ := CouplingGraph.lt_of_hasEdge hcoupled
  rw [hwires]
  exact ⟨ht, hs, CouplingGraph.ne_of_hasEdge hcoupled⟩

/-- How a prospect comes from another one. -/
theorem child_ok {number : ℕ} {pair : ℕ × ℕ} (h : p.child G number pair = .ok q) :
    ∃ w, (Reduction.clearPair G pair.1 pair.2 p.remaining).exec (.start p.matrix) = (.ok (), w) ∧
      q.matrix = w.matrix ∧ q.circuit = p.circuit.prepend (rowAdditions w.events) ∧
      q.remaining = p.remaining.remove pair.1 pair.2 ∧ q.number = number := by
  unfold child at h
  cases hadvance : p.advance (Reduction.clearPair G pair.1 pair.2 p.remaining) with
  | error e =>
    rw [hadvance] at h
    cases h
  | ok result =>
    obtain ⟨_, N, d⟩ := result
    rw [hadvance] at h
    cases h
    obtain ⟨w, hexec, hmatrix, hcircuit⟩ := advance_ok hadvance
    exact ⟨w, hexec, hmatrix, hcircuit, rfl, rfl⟩

/-- How a prospect is finished. -/
theorem settle_ok {choose : PairStrategy} {ops : List RowAddition} {output : List ℕ}
    (h : p.settle G choose = .ok (ops, output)) :
    ∃ final w, (Reduction.eliminateAll G choose p.remaining).exec (.start p.matrix) =
        (.ok final, w) ∧ ops = p.additions ++ rowAdditions w.events ∧ output = final.output := by
  unfold settle at h
  cases hadvance : p.advance (Reduction.eliminateAll G choose p.remaining) with
  | error e =>
    rw [hadvance] at h
    cases h
  | ok result =>
    obtain ⟨final, N, d⟩ := result
    rw [hadvance] at h
    cases h
    obtain ⟨w, hexec, _, hcircuit⟩ := advance_ok hadvance
    refine ⟨final, w, hexec, ?_, rfl⟩
    rw [hcircuit, Circuit.reverse_additions_prepend]
    rfl

/-- The prospect came from `M` by coupled row additions. -/
structure CoupledFrom (G : CouplingGraph) (M : ParityMatrix) (p : Prospect) : Prop where
  coupled : ∀ op ∈ p.additions, G.Coupled op.target op.source
  matrix_eq : p.matrix = M.addRows p.additions

/-- The first prospect has made no row addition. -/
theorem coupledFrom_start (G : CouplingGraph) (M : ParityMatrix) : (start M).CoupledFrom G M :=
  ⟨by simp [additions, start, Circuit.empty], rfl⟩

/-- An offshoot has made coupled row additions if its parent has. -/
theorem CoupledFrom.child (hp : p.CoupledFrom G M) {number : ℕ} {pair : ℕ × ℕ}
    (h : p.child G number pair = .ok q) : q.CoupledFrom G M := by
  obtain ⟨w, hexec, hmatrix, hcircuit, _⟩ := child_ok h
  obtain ⟨hcoupled, hrows⟩ := (Reduction.proceeds_clearPair (G := G) pair.1 pair.2
    p.remaining).exists_addRows p.matrix
  rw [Reduction.plan_eq, hexec] at hcoupled hrows
  constructor
  · rw [additions_prepend hcircuit]
    exact List.forall_mem_append.mpr ⟨hp.coupled, hcoupled⟩
  · rw [additions_prepend hcircuit, ParityMatrix.addRows_append, ← hp.matrix_eq, hmatrix]
    exact hrows

/-- What finishing a prospect adds is coupled too, and leads from `M` to where the elimination
ends. -/
theorem CoupledFrom.settle (hp : p.CoupledFrom G M) {choose : PairStrategy} {final : Remaining}
    {w : Work} (h : (Reduction.eliminateAll G choose p.remaining).exec (.start p.matrix) =
      (.ok final, w)) :
    (∀ op ∈ p.additions ++ rowAdditions w.events, G.Coupled op.target op.source) ∧
      w.matrix = M.addRows (p.additions ++ rowAdditions w.events) := by
  obtain ⟨hcoupled, hrows⟩ := (Reduction.proceeds_eliminateAll (G := G) choose
    p.remaining).exists_addRows p.matrix
  rw [Reduction.plan_eq, h] at hcoupled hrows
  refine ⟨List.forall_mem_append.mpr ⟨hp.coupled, hcoupled⟩, ?_⟩
  rw [ParityMatrix.addRows_append, ← hp.matrix_eq]
  exact hrows

/-- A finished prospect has made coupled row additions. -/
theorem CoupledFrom.settle_ok (hp : p.CoupledFrom G M) {choose : PairStrategy}
    {ops : List RowAddition} {output : List ℕ} (h : p.settle G choose = .ok (ops, output)) :
    ∀ op ∈ ops, G.Coupled op.target op.source := by
  obtain ⟨final, w, hexec, rfl, _⟩ := Prospect.settle_ok h
  exact (hp.settle hexec).1

end Prospect

/-- The offshoots of several pairs are that of the first one and those of the others. -/
theorem offshoots_cons_ok {p : Prospect} {number : ℕ} {pair : ℕ × ℕ} {pairs : List (ℕ × ℕ)}
    {children : List Prospect} (h : offshoots G p number (pair :: pairs) = .ok children) :
    ∃ q rest, p.child G number pair = .ok q ∧ offshoots G p (number + 1) pairs = .ok rest ∧
      children = q :: rest := by
  unfold offshoots at h
  cases hchild : p.child G number pair with
  | error e =>
    rw [hchild] at h
    cases h
  | ok q =>
    cases hrest : offshoots G p (number + 1) pairs with
    | error e =>
      simp only [hchild, hrest] at h
      cases h
    | ok rest =>
      simp only [hchild, hrest] at h
      cases h
      exact ⟨q, rest, rfl, rfl, rfl⟩

/-- All offshoots come from `M` by coupled row additions. -/
theorem offshoots_coupled {p : Prospect} (hp : p.CoupledFrom G M) (pairs : List (ℕ × ℕ)) :
    ∀ {number : ℕ} {children : List Prospect}, offshoots G p number pairs = .ok children →
      ∀ q ∈ children, q.CoupledFrom G M := by
  induction pairs with
  | nil =>
    intro number children h q hq
    cases h
    cases hq
  | cons pair pairs ih =>
    intro number children h q hq
    obtain ⟨child, rest, hchild, hrest, rfl⟩ := offshoots_cons_ok h
    rcases List.mem_cons.mp hq with rfl | hq
    · exact hp.child hchild
    · exact ih hrest q hq

/-- So does what a search finds, whatever waits. -/
theorem bestFirstFrom_coupled {choose : PairStrategy} {width : ℕ} (budget : ℕ) :
    ∀ {made : ℕ} {waiting : List Prospect} {ops : List RowAddition} {output : List ℕ},
      (∀ p ∈ waiting, p.CoupledFrom G M) →
      bestFirstFrom G choose width budget made waiting = .ok (ops, output) →
      ∀ op ∈ ops, G.Coupled op.target op.source := by
  induction budget with
  | zero =>
    intro made waiting ops output hwaiting h
    unfold bestFirstFrom at h
    cases hleast : leastBy Prospect.before waiting with
    | none =>
      rw [hleast] at h
      cases h
    | some p =>
      rw [hleast] at h
      exact (hwaiting p (leastBy_mem hleast)).settle_ok h
  | succ budget ih =>
    intro made waiting ops output hwaiting h
    unfold bestFirstFrom at h
    cases hleast : leastBy Prospect.before waiting with
    | none =>
      rw [hleast] at h
      cases h
    | some p =>
      rw [hleast] at h
      have hp := hwaiting p (leastBy_mem hleast)
      dsimp only at h
      split at h
      · exact hp.settle_ok h
      · cases hchildren : offshoots G p made
            (pairsTried G choose width p.matrix p.remaining) with
        | error e =>
          rw [hchildren] at h
          cases h
        | ok children =>
          rw [hchildren] at h
          refine ih ?_ h
          intro q hq
          rcases List.mem_append.mp hq with hq | hq
          · exact hwaiting q (List.mem_filter.mp hq).1
          · exact offshoots_coupled hp _ hchildren q hq

/-- **Best-first elimination finds coupled row additions.** -/
theorem bestFirst_coupled {choose : PairStrategy} {settings : BestFirst} {ops : List RowAddition}
    {output : List ℕ} (h : bestFirst G choose settings M = .ok (ops, output)) :
    ∀ op ∈ ops, G.Coupled op.target op.source := by
  refine bestFirstFrom_coupled (M := M) settings.budget ?_ h
  intro p hp
  rw [List.mem_singleton.mp hp]
  exact Prospect.coupledFrom_start G M

end BestFirst

/-! ## With a graph or without -/

/-- A row addition between two different rows out of `n` that the graph, if there is one, allows. -/
def Routed (G? : Option CouplingGraph) (n target source : ℕ) : Prop :=
  (⟨target, source⟩ : RowAddition).IsProper n ∧ ∀ G ∈ G?, G.Coupled target source

/-- The graph that is there has the size asked for, and is the given one if one is given. -/
theorem graphFor_ok {G? : Option CouplingGraph} {n : ℕ} {G : CouplingGraph}
    (h : graphFor G? n = .ok G) : G.size = n ∧ ∀ H ∈ G?, H = G := by
  cases G? with
  | none =>
    cases h
    exact ⟨rfl, by simp⟩
  | some H =>
    unfold graphFor at h
    dsimp only at h
    split at h
    · next hsize =>
      cases h
      exact ⟨hsize, by simp⟩
    · cases h

/-- What the graph couples is routed. -/
theorem routed_of_coupled {G? : Option CouplingGraph} {n : ℕ} {G : CouplingGraph}
    (h : graphFor G? n = .ok G) {target source : ℕ} (hG : G.Coupled target source) :
    Routed G? n target source := by
  obtain ⟨hsize, hgiven⟩ := graphFor_ok h
  obtain ⟨ht, hs⟩ := CouplingGraph.lt_of_hasEdge hG
  refine ⟨⟨hsize ▸ ht, hsize ▸ hs, CouplingGraph.ne_of_hasEdge hG⟩, ?_⟩
  intro H hH
  rw [hgiven H hH]
  exact hG

namespace Reduction

open Work

variable {G? : Option CouplingGraph}

/-- The check for invertible matrices leaves the work as it is. -/
theorem exec_requireInvertible {w w' : Work} {n : ℕ}
    (h : requireInvertible.exec w = (.ok n, w')) : w' = w ∧ n = w.matrix.rows := by
  unfold requireInvertible at h
  rw [Script.exec_bind, exec_matrix] at h
  dsimp only at h
  split at h
  · cases h
  · split at h
    · cases h
    · cases h
      exact ⟨rfl, rfl⟩

/-- The check for invertible matrices takes no step. -/
theorem proceeds_requireInvertible {E : ℕ → ℕ → Prop} : Proceeds E requireInvertible := by
  refine proceeds_matrix.bind fun M => ?_
  split
  · exact proceeds_stop _
  · split
    · exact proceeds_stop _
    · exact proceeds_pure _

/-- Steps on the graph that is there are routed steps. -/
theorem steps_graphFor_bind {β : Type} {n : ℕ} {f : CouplingGraph → Reduction β} {w : Work}
    (h : ∀ G, graphFor G? n = .ok G → Steps G.Coupled w ((f G).exec w).2) :
    Steps (Routed G? n) w (((liftM (graphFor G? n) : Reduction CouplingGraph) >>= f).exec w).2 := by
  refine steps_exec_bind (proceeds_lift _ w) ?_
  intro G w' hG
  rw [exec_lift] at hG
  obtain ⟨hG, rfl⟩ := Prod.ext_iff.mp hG
  exact (h G hG).mono fun a b => routed_of_coupled hG

/-- Tied vertex elimination stays on routes. -/
theorem steps_rowCol (G? : Option CouplingGraph) (w : Work) :
    Steps (Routed G? w.matrix.rows) w ((rowCol G?).exec w).2 := by
  refine steps_exec_bind (proceeds_requireInvertible w) ?_
  intro n w' h
  obtain ⟨rfl, rfl⟩ := exec_requireInvertible h
  refine steps_graphFor_bind fun G _ => ?_
  exact (proceeds_eliminateAll tiedPair _).bind (fun _ => proceeds_pure _) w'

/-- Row additions one after the other. -/
theorem exec_addRows (ops : List RowAddition) (w : Work) :
    (addRows ops).exec w = (.ok (), ops.foldl (fun w op => w.addRow op.target op.source) w) :=
  Script.exec_forM (fun _ _ => rfl) ops w

/-- Row additions that are all allowed. -/
theorem proceeds_addRows {E : ℕ → ℕ → Prop} {ops : List RowAddition}
    (h : ∀ op ∈ ops, E op.target op.source) : Proceeds E (addRows ops) :=
  proceeds_of_exec (exec_addRows ops) fun w =>
    steps_foldl (fun op hop w => steps_addRow (h op hop) w) w

/-- The pairs are reported one after the other. -/
theorem exec_reportPairs (pairs : List (ℕ × ℕ)) (w : Work) :
    (pairs.forM fun pair => report (.vertex pair.1 pair.2)).exec w =
      (.ok (), pairs.foldl (fun w x => w.note (.vertex x.1 x.2)) w) :=
  Script.exec_forM (fun _ _ => rfl) pairs w

/-- Free vertex elimination stays on routes, greedy or best first. -/
theorem steps_permRowCol (choose : PairStrategy) (search : Option BestFirst)
    (G? : Option CouplingGraph) (w : Work) :
    Steps (Routed G? w.matrix.rows) w ((permRowCol choose search G?).exec w).2 := by
  refine steps_exec_bind (proceeds_requireInvertible w) ?_
  intro n w' h
  obtain ⟨rfl, rfl⟩ := exec_requireInvertible h
  refine steps_graphFor_bind fun G _ => ?_
  cases search with
  | none => exact (proceeds_eliminateAll choose _).bind (fun _ => proceeds_pure _) w'
  | some settings =>
    refine proceeds_matrix.bind (fun M => ?_) w'
    -- the row additions found are carried out, then the pairs are noted
    intro w
    refine steps_exec_bind (proceeds_lift _ w) ?_
    rintro ⟨ops, output⟩ w' hfound
    rw [exec_lift] at hfound
    obtain ⟨hfound, rfl⟩ := Prod.ext_iff.mp hfound
    refine (proceeds_addRows (bestFirst_coupled hfound)).bind (fun _ => ?_) w
    refine (proceeds_of_exec (exec_reportPairs _) fun w => ?_).bind fun _ => proceeds_pure _
    exact steps_foldl (fun _ _ w => steps_note rfl w) w

end Reduction

end CnotSynthesis
