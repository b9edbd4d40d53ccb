import CnotSynthesis.Proofs.Placement.Chain
import CnotSynthesis.Proofs.Placement.Ranking

/-! # Chains of any matrices

What a chain is like if there is one. The matrices may be singular, and the elimination may stop
short of the identity: neither is checked on the way.

* **`Engine.Reduces e n M p q c`** — the elimination of `M`, placed between `p` and `q`, went
  through and made the circuit `c`.
* **`Joins e n placements Ms circuits`** — so for every matrix of a chain, between its two
  placements.
* **`Engine.link_reduces`** — an element of a chain; **`Engine.linksFrom_joins`**,
  **`Engine.pass_joins`** — a whole one.
* **`Engine.swarm_joins`** — a swarm returns none of its failures, since it tries the identity first
  and ties go to what came first.
* **`Engine.synthesize_joins`** — every strategy. -/

namespace CnotSynthesis

/-- A layout that is accepted is the one attached. -/
theorem Circuit.setLayout_ok {c d : Circuit} {l : Layout} (h : c.setLayout l = .ok d) :
    d = { c with layout := some l } := by
  unfold setLayout at h
  cases hrow : Permutation.check l.rowPerm c.qubits with
  | error e =>
    rw [hrow] at h
    cases h
  | ok _ =>
    cases hcol : Permutation.check l.colPerm c.qubits with
    | error e =>
      rw [hrow, hcol] at h
      cases h
    | ok _ =>
      rw [hrow, hcol] at h
      exact (Except.ok.inj h).symm

namespace Chain

open Reporting ParityMatrix

variable {e : Engine} {n : ℕ} {M : ParityMatrix} {Ms : List ParityMatrix}

/-! ## One element -/

/-- **A reduced element**: the elimination of the placed matrix went through, and the circuit is
what it left, laid out by the two placements. -/
structure Engine.Reduces (e : Engine) (n : ℕ) (M : ParityMatrix) (input output : List ℕ)
    (c : Circuit) : Prop where
  rows_eq : M.rows = n
  cols_eq : M.cols = n
  inputPerm : IsPermutation input n
  outputPerm : IsPermutation output n
  outcome_ok : ∃ k, (e.reduce e.graph (M.relabel output input)
    (some (Circuit.empty n))).outcome = .ok k
  circuit_eq : c = { (e.reduce e.graph (M.relabel output input)
    (some (Circuit.empty n))).circuit.getD (Circuit.empty n) with layout := some ⟨output, input⟩ }

namespace Engine

/-- Nothing is asked of a search for a placement, and it may fail. -/
theorem place_returns (e : Engine) (index n : ℕ) (free : Freedom) (M : ParityMatrix) :
    Yields True (e.place index n free M) fun _ => True :=
  yields_contractual_bind (fun _ _ => trivial) fun _ _ => yields_report_bind (yields_pure trivial)

/-- An element on given placements; only permutations are placements. -/
theorem reduceLink_reduces (hrows : M.rows = n) (hcols : M.cols = n)
    {current : List ℕ} (hcurrent : IsPermutation current n) (rowPerm colPerm : List ℕ) :
    Yields True (e.reduceLink n current rowPerm colPerm (M.relabel (List.range n) current)) fun l =>
      e.Reduces n M l.input l.output l.circuit ∧ l.input = Permutation.compose current colPerm := by
  refine yields_algebraic_bind (fun _ _ => trivial) ?_
  intro N hN
  obtain ⟨hrow, hcol, rfl⟩ := relabel?_ok hN
  have hrow : IsPermutation rowPerm n := hrows ▸ hrow
  have hcol : IsPermutation colPerm n := hcols ▸ hcol
  -- the two relabellings are one
  rw [relabel_relabel (hrows ▸ hrow) (hcols ▸ hcol), Permutation.range_compose hrow.lt]
  have hrest : Yields True (do
      let _ ← liftM (e.reduce e.graph (M.relabel rowPerm (Permutation.compose current colPerm))
        (some (Circuit.empty n))).outcome
      let circuit ← algebraic (((e.reduce e.graph (M.relabel rowPerm
        (Permutation.compose current colPerm)) (some (Circuit.empty n))).circuit.getD
          (Circuit.empty n)).setLayout ⟨rowPerm, Permutation.compose current colPerm⟩)
      pure (⟨circuit, Permutation.compose current colPerm, rowPerm⟩ : Link))
      fun l => e.Reduces n M l.input l.output l.circuit ∧
        l.input = Permutation.compose current colPerm := by
    refine yields_lift_bind (fun _ _ => trivial) fun k hk => ?_
    refine yields_algebraic_bind (fun _ _ => trivial) fun c hc => ?_
    exact yields_pure ⟨⟨hrows, hcols, hcurrent.compose hcol, hrow, ⟨k, hk⟩,
      Circuit.setLayout_ok hc⟩, rfl⟩
  dsimp only
  split
  · exact yields_report_bind hrest
  · exact hrest

/-- **An element of a chain**; columns that are not free stay where they are. -/
theorem link_reduces (hrows : M.rows = n) (hcols : M.cols = n) (index m : ℕ) (search : Bool)
    (free : Freedom) (current : List ℕ) :
    Yields True (e.link index m search free current M) fun l =>
      e.Reduces n M l.input l.output l.circuit ∧ (free.columns = false → l.input = current) := by
  refine yields_algebraic_bind (fun _ _ => trivial) ?_
  intro N hN
  obtain ⟨hidentity, hcurrent, rfl⟩ := relabel?_ok hN
  have hcurrent : IsPermutation current n := hcols ▸ hcurrent
  obtain rfl : m = n := by
    rw [← hrows, ← hidentity.length_eq, List.length_range]
  have hrest : ∀ p, Yields True
      (e.reduceLink m current (if free.rows = true then p else List.range m)
        (if free.columns = true then p else List.range m) (M.relabel (List.range m) current))
      fun l => e.Reduces m M l.input l.output l.circuit ∧
        (free.columns = false → l.input = current) := by
    intro p
    refine (reduceLink_reduces hrows hcols hcurrent _ _).mono id ?_
    rintro l ⟨hreduces, hinput⟩
    refine ⟨hreduces, fun hfixed => ?_⟩
    rw [hinput, hfixed]
    exact hcurrent.compose_range
  dsimp only
  split
  · exact (e.place_returns index m free _).bind fun p _ => hrest p
  · exact hrest _

end Engine

/-! ## Whole chains -/

/-- **A chain that was made** on `n` qubits: each matrix was reduced between its two placements. -/
inductive Joins (e : Engine) (n : ℕ) :
    List (List ℕ) → List ParityMatrix → List Circuit → Prop
  /-- No matrix, and the placement at the end. -/
  | last {p : List ℕ} (hp : IsPermutation p n) : Joins e n [p] [] []
  /-- A matrix between two placements. -/
  | link {p q : List ℕ} {ps : List (List ℕ)} {M : ParityMatrix} {Ms : List ParityMatrix}
      {c : Circuit} {cs : List Circuit} (hc : e.Reduces n M p q c) (h : Joins e n (q :: ps) Ms cs) :
      Joins e n (p :: q :: ps) (M :: Ms) (c :: cs)

namespace Joins

variable {ps : List (List ℕ)} {cs : List Circuit}

/-- A circuit for each matrix, and one placement more. -/
theorem lengths (h : Joins e n ps Ms cs) :
    cs.length = Ms.length ∧ ps.length = Ms.length + 1 := by
  induction h with
  | last => exact ⟨rfl, rfl⟩
  | link _ _ ih => simpa using ih

/-- **Each matrix of a chain**, with its circuit and its two placements. -/
theorem element (h : Joins e n ps Ms cs) : ∀ {i : ℕ}, Ms[i]? = some M →
    ∃ c p q, cs[i]? = some c ∧ ps[i]? = some p ∧ ps[i + 1]? = some q ∧ e.Reduces n M p q c := by
  induction h with
  | last => simp
  | link hc _ ih =>
    intro i hM
    cases i with
    | zero =>
      rw [List.getElem?_cons_zero, Option.some_inj] at hM
      exact ⟨_, _, _, rfl, rfl, rfl, hM ▸ hc⟩
    | succ i => exact ih hM

end Joins

namespace Engine

/-- **A chain from given columns**, which the first element may place anew. -/
theorem linksFrom_joins (m : ℕ) (search outputFree : Bool) (Ms : List ParityMatrix) :
    ∀ (index : ℕ) (columnsFree : Bool) (current : List ℕ),
      (∀ M ∈ Ms, M.rows = n ∧ M.cols = n) →
      (Ms = [] → columnsFree = false ∧ IsPermutation current n) →
      Yields True (e.linksFrom m search outputFree index columnsFree current Ms) fun s =>
        Joins e n (if columnsFree = true then s.placements else current :: s.placements) Ms
          s.circuits ∧ s.score ≤ infeasible := by
  induction Ms with
  | nil =>
    intro index columnsFree current _ hnil
    obtain ⟨rfl, hcurrent⟩ := hnil rfl
    exact yields_pure ⟨.last hcurrent, Nat.zero_le _⟩
  | cons M rest ih =>
    intro index columnsFree current hMs _
    obtain ⟨hrows, hcols⟩ := hMs M List.mem_cons_self
    refine (link_reduces hrows hcols index m search _ current).bind ?_
    rintro l ⟨hreduces, hinput⟩
    -- the rows just placed are the columns of the next element
    refine (ih (index + 1) false l.output (fun N hN => hMs N (List.mem_cons_of_mem _ hN))
      fun _ => ⟨rfl, hreduces.outputPerm⟩).bind ?_
    rintro tail ⟨hjoins, _⟩
    have hlink : Joins e n (l.input :: l.output :: tail.placements) (M :: rest)
        (l.circuit :: tail.circuits) := .link hreduces hjoins
    refine yields_pure ⟨?_, min_le_right _ _⟩
    cases columnsFree with
    | true => exact hlink
    | false =>
      rw [hinput rfl] at hlink
      exact hlink

/-- **A pass over a chain**, from any placement. -/
theorem pass_joins (hMs : ∀ M ∈ Ms, M.rows = n ∧ M.cols = n) (hne : Ms ≠ [])
    (search inputFree outputFree : Bool) (initial : List ℕ) :
    Yields True (e.pass search inputFree outputFree initial Ms) fun s =>
      Joins e n s.placements Ms s.circuits ∧ s.score ≤ infeasible := by
  refine (linksFrom_joins initial.length search outputFree Ms 0 inputFree initial hMs
    fun h => absurd h hne).bind ?_
  rintro s ⟨hjoins, hscore⟩
  cases inputFree with
  | true => exact yields_pure ⟨hjoins, hscore⟩
  | false => exact yields_pure ⟨hjoins, hscore⟩

/-- There and back, the chain joins its matrices. -/
theorem forthAndBack_joins (hMs : ∀ M ∈ Ms, M.rows = n ∧ M.cols = n) (hne : Ms ≠ [])
    (placement : List ℕ) :
    Yields True (e.forthAndBack Ms placement) fun r =>
      Joins e n r.2.placements Ms r.2.circuits ∧ r.2.score ≤ infeasible := by
  refine (pass_joins hMs hne true false true placement).bind fun forth hforth => ?_
  have hback : ∀ M ∈ Ms.reverse.map ParityMatrix.transpose, M.rows = n ∧ M.cols = n := by
    intro N hN
    obtain ⟨M, hM, rfl⟩ := List.mem_map.mp hN
    exact (hMs M (List.mem_reverse.mp hM)).symm
  exact (pass_joins hback (by simpa using hne) true false true _).bind fun _ _ => yields_pure hforth

/-! ## Strategies -/

/-- A step of the swarm that has a finite cost has found a chain. -/
theorem swarmStep_joins (hMs : ∀ M ∈ Ms, M.rows = n ∧ M.cols = n) (hne : Ms ≠ [])
    (placement : List ℕ) (hcost : (e.swarmStep Ms placement).cost < infeasible) :
    Joins e n (e.swarmStep Ms placement).solution.placements Ms
      (e.swarmStep Ms placement).solution.circuits := by
  unfold swarmStep at hcost ⊢
  rcases hrun : (e.forthAndBack Ms placement).run.run [] with ⟨_ | ⟨next, forth⟩, events⟩
  · rw [hrun] at hcost
    exact absurd hcost (Nat.lt_irrefl _)
  · exact ((forthAndBack_joins hMs hne placement).of_run_eq hrun).1

/-- **A swarm search that returns a chain returns one that was made**, not a failure. -/
theorem swarm_joins (hMs : ∀ M ∈ Ms, M.rows = n ∧ M.cols = n) (hne : Ms ≠ []) {s : Solution}
    {log : List Event} (hrun : (e.swarm n Ms).run.run [] = (.ok s, log)) :
    Joins e n s.placements Ms s.circuits := by
  obtain ⟨⟨next, forth⟩, log₁, hforth, log', hrun⟩ := bind_eq_ok_iff.mp ⟨log, hrun⟩
  -- the trial before the swarm is the first step of its first particle
  have hstep : e.swarmStep Ms (List.range n) = ⟨next, forth, forth.score, log₁⟩ := by
    unfold swarmStep
    rw [hforth]
  obtain ⟨hjoins, hscore⟩ := (forthAndBack_joins hMs hne (List.range n)).of_run_eq hforth
  have hfirst : Joins e n (e.swarmStep Ms (List.range n)).solution.placements Ms
      (e.swarmStep Ms (List.range n)).solution.circuits := by
    rw [hstep]
    exact hjoins
  have hcost : (e.swarmStep Ms (List.range n)).cost ≤ infeasible := by
    rw [hstep]
    exact hscore
  have hfind := Swarm.find_holds (P := fun s => Joins e n s.placements Ms s.circuits)
    (s := e.search.swarm) hfirst hcost (swarmStep_joins hMs hne) e.search.source e.search.seed
    Solution.empty e.search.swarm.steps
  refine Yields.of_run_eq (F := True) (Q := fun s => Joins e n s.placements Ms s.circuits) ?_ hrun
  refine yields_contractual_bind (fun _ _ => trivial) fun found hfound => ?_
  have hfound : Swarm.find e.search.swarm e.search.source e.search.seed (e.swarmStep Ms)
      Solution.empty n e.search.swarm.steps = found := (Swarm.find?_eq_ok_iff.mp hfound).2.2
  rw [← hfound]
  exact yields_report_bind (yields_pure hfind)

/-- The check of the sizes reports nothing. -/
theorem checkSizes_ok {log log' : List Event}
    (h : (checkSizes n Ms).run.run log = (.ok (), log')) :
    log' = log ∧ ∀ M ∈ Ms, M.rows = n ∧ M.cols = n := by
  induction Ms with
  | nil =>
    cases h
    exact ⟨rfl, nofun⟩
  | cons M rest ih =>
    unfold checkSizes at h
    split at h
    · next hsize =>
      obtain ⟨hlog, hrest⟩ := ih h
      exact ⟨hlog, List.forall_mem_cons.mpr ⟨hsize, hrest⟩⟩
    · cases h

/-- **Every strategy returns chains that were made.** -/
theorem synthesize_joins {strategy : Strategy} {inputFree outputFree : Bool} {s : Solution}
    {log : List Event}
    (hrun : (e.synthesize strategy (M :: Ms) inputFree outputFree).run.run [] = (.ok s, log)) :
    Joins e M.rows s.placements (M :: Ms) s.circuits := by
  obtain ⟨⟨⟩, log₁, hsizes, log', hrun⟩ := bind_eq_ok_iff.mp ⟨log, hrun⟩
  obtain ⟨rfl, hMs⟩ := checkSizes_ok hsizes
  have hne : M :: Ms ≠ [] := List.cons_ne_nil M Ms
  have hpass : ∀ {search inFree outFree : Bool},
      (e.pass search inFree outFree (List.range M.rows) (M :: Ms)).run.run [] = (.ok s, log') →
      Joins e M.rows s.placements (M :: Ms) s.circuits :=
    fun hrun => ((pass_joins hMs hne _ _ _ _).of_run_eq hrun).1
  cases strategy with
  | basic => exact hpass hrun
  | genetic => exact hpass hrun
  | swarm =>
    dsimp only at hrun
    split at hrun
    · exact swarm_joins hMs hne hrun
    · exact hpass hrun

end Engine

end Chain

end CnotSynthesis
