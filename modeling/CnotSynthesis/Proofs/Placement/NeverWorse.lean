import CnotSynthesis.Proofs.Elimination.Recording
import CnotSynthesis.Proofs.Method
import CnotSynthesis.Proofs.Placement.Ranking

/-! # Placement searches are never worse than no placement

A search tries the identity among other placements and keeps the cheapest. What it does in the end
with the placement it keeps is what it did when it tried it: so the circuit it returns has the gates
and the cost that it has noted. The matrices need not be invertible.

* **`Reducer.Places reduce G? n M`** — the elimination makes a circuit of `M` however its rows and
  columns are placed. For an elimination this is a matter of outcomes (**`Method.places_of_ok`**).
* **`Engine.Settles e n M initial output c s`** — the chain `s` of the matrix `M` alone: columns at
  `initial`, rows at `output`, where the circuit `c` costs at most as much as at the identity.
* **`Engine.swarm_settles`** — what a swarm search of one matrix finds.
* **`Method.search_never_worse`** — both searches. -/

namespace CnotSynthesis

open Chain

/-! ## Costs -/

/-- Only gates cost. -/
theorem Metric.score_congr (metric : Metric) {c d : Circuit} (h : c.gates = d.gates) :
    metric.score c = metric.score d := by
  cases metric <;> simp only [score, Circuit.depth, Circuit.count, h]

namespace Placement.Task

variable {t : Task} {N : ParityMatrix} {p : List ℕ} {n : ℕ} {c : Circuit}

/-- The circuit tried for a placement. -/
theorem circuit_eq (hrelabel : t.relabel p = some N) (hrows : N.rows = n)
    (h : (t.reduce t.graph N (some (Circuit.empty n))).Makes n c) : t.circuit p = some c := by
  obtain ⟨k, hk⟩ := h.outcome_ok
  unfold circuit run
  rw [hrelabel, Option.map_some, hrows, Option.bind_eq_bind, Option.bind_some, hk]
  exact h.circuit_eq

/-- A placement costs what its circuit scores. -/
theorem fitness_eq (h : t.circuit p = some c) : t.fitness p = t.metric.score c := by
  unfold fitness
  rw [h]

end Placement.Task

/-! ## Placed matrices -/

/-- **A matrix to be placed**: of `n` rows and columns, and whatever their placements, the
elimination makes a circuit. -/
structure Reducer.Places (reduce : Reducer) (G? : Option CouplingGraph) (n : ℕ)
    (M : ParityMatrix) : Prop where
  rows_eq : M.rows = n
  cols_eq : M.cols = n
  makes : ∀ {rows cols : List ℕ}, IsPermutation rows n → IsPermutation cols n →
    ∃ c, (reduce G? (M.relabel rows cols) (some (Circuit.empty n))).Makes n c

namespace Reducer.Places

variable {reduce : Reducer} {G? : Option CouplingGraph} {n : ℕ} {M : ParityMatrix}

/-- A matrix placed at the identity is left in place. -/
theorem relabel_range (h : reduce.Places G? n M) :
    M.relabel (List.range n) (List.range n) = M := by
  have hrange := M.relabel_range
  rwa [h.rows_eq, h.cols_eq] at hrange

/-- The matrix left in place has its circuit. -/
theorem makes_self (h : reduce.Places G? n M) :
    ∃ c, (reduce G? M (some (Circuit.empty n))).Makes n c := by
  obtain ⟨c, hc⟩ := h.makes (isPermutation_range n) (isPermutation_range n)
  rw [h.relabel_range] at hc
  exact ⟨c, hc⟩

end Reducer.Places

namespace Chain.Engine

open Reporting

variable {e : Engine} {n : ℕ} {M : ParityMatrix} {F : Prop} {initial : List ℕ}

/-- **A settled chain of one matrix**: the columns are placed at `initial`, and the rows at a
placement where the circuit costs at most as much as at the identity. -/
structure Settles (e : Engine) (n : ℕ) (M : ParityMatrix) (initial output : List ℕ) (c : Circuit)
    (s : Solution) : Prop where
  isPermutation : IsPermutation output n
  makes : (e.reduce e.graph (M.relabel output initial) (some (Circuit.empty n))).Makes n c
  solution_eq : s = ⟨[{ c with layout := some ⟨output, initial⟩ }], [initial, output],
    min (e.search.metric.score c) infeasible⟩
  least : ∀ d, (e.reduce e.graph (M.relabel (List.range n) initial)
    (some (Circuit.empty n))).Makes n d → e.search.metric.score c ≤ e.search.metric.score d

/-- The cost that a search for the rows notes, when the columns are placed already. -/
theorem fitness_rows (hrows : M.rows = n) (hcols : M.cols = n) (hinitial : IsPermutation initial n)
    {p : List ℕ} (hp : IsPermutation p n) {c : Circuit}
    (hc : (e.reduce e.graph (M.relabel p initial) (some (Circuit.empty n))).Makes n c) :
    Placement.Task.fitness ⟨M.relabel (List.range n) initial, e.reduce, e.graph, e.search.metric,
      true, false⟩ p = e.search.metric.score c := by
  have hidentity := isPermutation_range n
  have hboth : (M.relabel (List.range n) initial).relabel? p (List.range n) =
      .ok (M.relabel p initial) := by
    rw [ParityMatrix.relabel?_eq (hrows ▸ hp) (hcols ▸ hidentity),
      ParityMatrix.relabel_relabel (hrows ▸ hp) (hcols ▸ hidentity),
      Permutation.range_compose hp.lt, hinitial.compose_range]
  have hrelabel : Placement.Task.relabel ⟨M.relabel (List.range n) initial, e.reduce, e.graph,
      e.search.metric, true, false⟩ p = some (M.relabel p initial) := by
    show ((M.relabel (List.range n) initial).relabel? p (List.range M.cols)).toOption = _
    rw [hcols, hboth]
    rfl
  exact Placement.Task.fitness_eq (Placement.Task.circuit_eq hrelabel hrows hc)

section Searches

variable (hroom : n < addressLimit) (hpopulation : 0 < e.search.genetic.populationSize)

include hroom hpopulation

/-- **One element**, its columns placed: the search for its rows starts at the identity. -/
theorem link_settles (hM : e.reduce.Places e.graph n M) (hinitial : IsPermutation initial n)
    (index : ℕ) :
    Yields F (e.link index n true ⟨true, false⟩ initial M) fun l =>
      ∃ output c, l = ⟨{ c with layout := some ⟨output, initial⟩ }, initial, output⟩ ∧
        e.Settles n M initial output c ⟨[l.circuit], [initial, output],
          min (e.search.metric.score c) infeasible⟩ := by
  obtain ⟨hrows, hcols, hmakes⟩ := hM
  have hidentity := isPermutation_range n
  obtain ⟨c₀, hc₀⟩ := hmakes hidentity hinitial
  unfold link
  dsimp only
  rw [ParityMatrix.relabel?_eq (hrows ▸ hidentity) (hcols ▸ hinitial)]
  refine yields_algebraic_bind (by simp) ?_
  rintro _ ⟨⟩
  show Yields F (do
    let p ← e.place index n ⟨true, false⟩ (M.relabel (List.range n) initial)
    e.reduceLink n initial p (List.range n) (M.relabel (List.range n) initial)) _
  refine (place_finds (M := M.relabel (List.range n) initial) hrows hcols hroom hc₀ index
    ⟨true, false⟩).bind ?_
  rintro _ rfl
  obtain ⟨final, events, p, hfind, hp, _, hle⟩ := Genetic.find_best hpopulation
    (Placement.Task.fitness ⟨M.relabel (List.range n) initial, e.reduce, e.graph, e.search.metric,
      true, false⟩) n e.search.genetic.generations
    (Genetic.State.start (e.search.generator index))
  rw [hfind]
  obtain ⟨c, hc⟩ := hmakes hp hinitial
  have hinput := hinitial.compose_range
  refine (reduceLink_makes hrows hcols hinitial hp hidentity (c := c) (by rwa [hinput])).mono id ?_
  intro l hl
  rw [hinput] at hl
  refine ⟨p, c, hl, hp, hc, by rw [hl], ?_⟩
  intro d hd
  rw [← fitness_rows hrows hcols hinitial hp hc, ← fitness_rows hrows hcols hinitial hidentity hd]
  exact hle

/-- **A pass over one matrix** from a placement of its columns. -/
theorem pass_settles (hM : e.reduce.Places e.graph n M) (hinitial : IsPermutation initial n) :
    Yields F (e.pass true false true initial [M]) fun s =>
      ∃ output c, e.Settles n M initial output c s := by
  unfold pass linksFrom
  rw [hinitial.length_eq]
  refine Yields.bind (Q := fun s => ∃ output c, e.Settles n M initial output c
    { s with placements := initial :: s.placements }) ?_ fun s hs => yields_pure hs
  refine (link_settles hroom hpopulation hM hinitial 0).bind ?_
  rintro l ⟨output, c, rfl, hl⟩
  -- nothing follows the only element
  exact yields_pure ⟨output, c, hl⟩

/-- **Forth and back** over one matrix. -/
theorem forthAndBack_settles (hM : e.reduce.Places e.graph n M)
    (hT : e.reduce.Places e.graph n M.transpose) (hinitial : IsPermutation initial n) :
    Yields F (e.forthAndBack [M] initial) fun r =>
      IsPermutation r.1 n ∧ ∃ output c, e.Settles n M initial output c r.2 := by
  refine (pass_settles hroom hpopulation hM hinitial).bind ?_
  rintro forth ⟨output, c, hforth⟩
  have hlast : forth.placements.getLast?.getD [] = output := by
    rw [hforth.solution_eq]
    rfl
  dsimp only
  rw [hlast]
  refine (pass_settles hroom hpopulation hT hforth.isPermutation).bind ?_
  rintro back ⟨next, d, hback⟩
  refine yields_pure ⟨?_, output, c, hforth⟩
  rw [hback.solution_eq]
  exact hback.isPermutation

/-- **A step of the swarm** over one matrix. -/
theorem swarmStep_settles (hM : e.reduce.Places e.graph n M)
    (hT : e.reduce.Places e.graph n M.transpose) (hinitial : IsPermutation initial n) :
    IsPermutation (e.swarmStep [M] initial).next n ∧
      (e.swarmStep [M] initial).cost = (e.swarmStep [M] initial).solution.score ∧
      ∃ output c, e.Settles n M initial output c (e.swarmStep [M] initial).solution := by
  obtain ⟨⟨next, forth⟩, events, hrun, hnext, hforth⟩ :=
    (forthAndBack_settles (F := False) hroom hpopulation hM hT hinitial).run_eq []
  unfold swarmStep
  rw [hrun]
  exact ⟨hnext, rfl, hforth⟩

/-- **A swarm search of one matrix** settles somewhere, at most at the cost of the matrix left in
place. -/
theorem swarm_settles (hM : e.reduce.Places e.graph n M)
    (hT : e.reduce.Places e.graph n M.transpose)
    (hswarm : e.search.swarm.swarmSize < addressLimit) :
    Yields F (e.swarm n [M]) fun s =>
      ∃ initial output c, IsPermutation initial n ∧ e.Settles n M initial output c s ∧
        ∀ d, (e.reduce e.graph M (some (Circuit.empty n))).Makes n d →
          s.score ≤ e.search.metric.score d := by
  have hidentity := isPermutation_range n
  have hstep := fun {p : List ℕ} (hp : IsPermutation p n) =>
    swarmStep_settles hroom hpopulation hM hT hp
  have hstays : Swarm.StaysOn (fun _ => True) n (e.swarmStep [M]) :=
    ⟨fun _ hp => (hstep hp).1, fun _ _ => trivial⟩
  refine (forthAndBack_settles hroom hpopulation hM hT hidentity).bind fun _ _ => ?_
  have hsound := Swarm.sound_find (s := e.search.swarm) hstays e.search.source e.search.seed
    Solution.empty e.search.swarm.steps
  obtain ⟨htold, hle⟩ := Swarm.find_best e.search.swarm e.search.source e.search.seed
    (e.swarmStep [M]) Solution.empty n e.search.swarm.steps
  unfold Swarm.find?
  rw [requireRoom_eq_ok hswarm, requireRoom_eq_ok hroom]
  refine yields_contractual_bind (by rintro _ ⟨⟩) ?_
  rintro _ ⟨⟩
  refine yields_report_bind (yields_pure ?_)
  obtain ⟨_, hcost, output, c, hsettles⟩ := hstep hsound.point
  obtain ⟨_, hcost₀, output₀, c₀, hsettles₀⟩ := hstep hidentity
  rw [← htold.solution_eq] at hcost hsettles
  refine ⟨_, output, c, hsound.point, hsettles, ?_⟩
  intro d hd
  -- at the identity the rows were searched for too
  have hleast := hsettles₀.least d (by rwa [hM.relabel_range])
  rw [hcost₀, hsettles₀.solution_eq, htold.cost_eq, hcost] at hle
  exact hle.trans ((min_le_left _ _).trans hleast)

end Searches

end Chain.Engine

/-! ## Methods -/

namespace Method

open ParityMatrix

variable {base : Method} {s : SearchSettings} {G? : Option CouplingGraph} {M : ParityMatrix}

/-- An elimination that succeeds on an empty circuit makes a circuit. -/
theorem makes_of_ok {m : Method} (hm : m.IsElimination) {n k : ℕ} (hrows : M.rows = n)
    (hk : (m.reduce G? M (some (Circuit.empty n))).outcome = .ok k) :
    ∃ c, (m.reduce G? M (some (Circuit.empty n))).Makes n c := by
  obtain ⟨events, h⟩ := reduce_transcribes hm G? M
  have h := h (some (Circuit.empty n))
  obtain ⟨c, hc, _⟩ := Option.map_eq_some_iff.mp h.circuit
  obtain ⟨hwell, hqubits, _⟩ := h.parity_mul rfl hc (Circuit.wellFormed_empty n) hrows.symm
  exact ⟨c, ⟨k, hk⟩, hc, hwell, hqubits.trans hrows⟩

/-- Gaussian elimination succeeds on an empty circuit, also of a singular matrix, and however it is
relabelled. -/
theorem gauss_ok_relabel (full : Bool) (G? : Option CouplingGraph) (hsquare : M.cols = M.rows) :
    ∀ N ∈ [M, M.transpose], ∀ rows cols : List ℕ,
      ∃ k, ((Method.gauss full).reduce G? (N.relabel rows cols)
        (some (Circuit.empty M.rows))).outcome = .ok k := by
  intro N hN rows cols
  have hrows : (N.relabel rows cols).rows = M.rows := by
    rcases List.mem_pair.mp hN with rfl | rfl
    · rfl
    · exact hsquare
  rw [← hrows]
  obtain ⟨c, hrecord, _⟩ := (gaussPlan full (N.relabel rows cols)).record_empty
    (steps_gaussPlan full _) (fun _ _ h => h) rfl
  rw [reduce_gauss, hrecord]
  exact ⟨_, rfl⟩

/-- **Successful outcomes for all placements** are circuits for all placements. -/
theorem places_of_ok (hbase : base.IsElimination) {n : ℕ} (hrows : M.rows = n)
    (hcols : M.cols = n)
    (hok : ∀ rows cols, IsPermutation rows n → IsPermutation cols n →
      ∃ k, (base.reduce G? (M.relabel rows cols) (some (Circuit.empty n))).outcome = .ok k) :
    base.reduce.Places G? n M := by
  refine ⟨hrows, hcols, ?_⟩
  intro rows cols hr hc
  obtain ⟨k, hk⟩ := hok rows cols hr hc
  exact makes_of_ok hbase hrows hk

/-- **The circuit of a placed matrix** has the gates made of the relabelled one. -/
theorem reduceRelabelled_gates {rows cols : List ℕ} {c : Circuit} {reduce : Reducer}
    (hM : reduce.Places G? M.rows M) (hrows : IsPermutation rows M.rows)
    (hcols : IsPermutation cols M.rows) (events : List Event)
    (hc : (reduce G? (M.relabel rows cols) (some (Circuit.empty M.rows))).Makes M.rows c) :
    ∃ k d, (reduceRelabelled reduce G? M (some (Circuit.empty M.rows)) rows cols events).outcome =
        .ok k ∧
      (reduceRelabelled reduce G? M (some (Circuit.empty M.rows)) rows cols events).circuit =
        some d ∧ c.gates = d.gates := by
  obtain ⟨k, hk⟩ := hc.outcome_ok
  rw [reduceRelabelled_eq hrows (hM.cols_eq ▸ hcols) hM.cols_eq events hc]
  exact ⟨k, _, hk, rfl, rfl⟩

section Searches

variable (hM : base.reduce.Places G? M.rows M) (hroom : M.rows < addressLimit)
  (hpopulation : 0 < s.genetic.populationSize)

include hM hroom hpopulation

/-- **A genetic search** settles on a placement where the circuit that it tried costs at most as
much as that of the matrix left in place. -/
theorem genetic_settles :
    let task : Placement.Task := ⟨M, base.reduce, G?, s.metric, true, true⟩
    ∃ final events p c, Genetic.find s.genetic task.fitness M.rows s.genetic.generations
        (Genetic.State.start (s.generator 0)) = (final, events, p) ∧
      IsPermutation p M.rows ∧ task.circuit p = some c ∧
      (base.reduce G? (M.relabel p p) (some (Circuit.empty M.rows))).Makes M.rows c ∧
      final.best? = some ⟨s.metric.score c, p⟩ ∧
      (∀ d, (base.reduce G? M (some (Circuit.empty M.rows))).Makes M.rows d →
        s.metric.score c ≤ s.metric.score d) ∧
      (Method.genetic base s).reduce G? M (some (Circuit.empty M.rows)) =
        reduceRelabelled base.reduce G? M (some (Circuit.empty M.rows)) p p events := by
  intro task
  have hidentity := isPermutation_range M.rows
  -- what the search tries at a placement is what is done there in the end
  have hcircuit : ∀ {p c}, IsPermutation p M.rows →
      (base.reduce G? (M.relabel p p) (some (Circuit.empty M.rows))).Makes M.rows c →
      task.circuit p = some c := by
    intro p c hp hc
    refine Placement.Task.circuit_eq (N := M.relabel p p) ?_ rfl hc
    show (M.relabel? p p).toOption = _
    rw [relabel?_eq hp (hM.cols_eq ▸ hp)]
    rfl
  obtain ⟨final, events, p, hfind, hp, hbest, hle⟩ := Genetic.find_best hpopulation task.fitness
    M.rows s.genetic.generations (Genetic.State.start (s.generator 0))
  obtain ⟨c, hc⟩ := hM.makes hp hp
  obtain ⟨c₀, hc₀⟩ := hM.makes_self
  refine ⟨final, events, p, c, hfind, hp, hcircuit hp hc, hc, ?_, ?_, ?_⟩
  · rw [hbest, Genetic.evaluate, Placement.Task.fitness_eq (hcircuit hp hc)]
  · intro d hd
    rw [Placement.Task.fitness_eq (hcircuit hp hc),
      Placement.Task.fitness_eq (hcircuit hidentity (by rwa [hM.relabel_range]))] at hle
    exact hle
  · refine reduce_genetic_of_ok _ ((geneticPlacement_eq_find hM.cols_eq hroom hc₀).trans ?_)
    rw [hfind]

/-- **A swarm search** settles on placements of the rows and of the columns. -/
theorem swarm_settles (hT : base.reduce.Places G? M.rows M.transpose)
    (hswarm : s.swarm.swarmSize < addressLimit) :
    ∃ solution events initial output c, swarmPlacement base.reduce s G? M = (.ok solution, events) ∧
      IsPermutation initial M.rows ∧
      Engine.Settles ⟨base.reduce, false, G?, s⟩ M.rows M initial output c solution ∧
      (∀ d, (base.reduce G? M (some (Circuit.empty M.rows))).Makes M.rows d →
        solution.score ≤ s.metric.score d) ∧
      (Method.swarm base s).reduce G? M (some (Circuit.empty M.rows)) =
        reduceRelabelled base.reduce G? M (some (Circuit.empty M.rows)) output initial events := by
  obtain ⟨solution, events, hrun, initial, output, c, hinitial, hsettles, hle⟩ :=
    (Engine.swarm_settles (e := ⟨base.reduce, false, G?, s⟩) (F := False) hroom hpopulation hM hT
      hswarm).run_eq []
  rw [← swarmPlacement_eq_swarm hM.cols_eq] at hrun
  refine ⟨solution, _, initial, output, c, hrun, hinitial, hsettles, hle, ?_⟩
  rw [reduce_swarm_of_ok _ hrun, hsettles.solution_eq]
  rfl

end Searches

/-- **A placement search is never worse than no placement**, whatever is drawn. Around an
elimination that succeeds on every relabelling of a square matrix and of its transpose, both
searches succeed. Their circuits have the gates of the circuit they scored, and cost what they noted
for it: at most what the circuit for the matrix left in place costs. The cost that a swarm notes is
a number of 64 bits; a larger one is noted as the largest. -/
theorem search_never_worse (hbase : base.IsElimination) (s : SearchSettings)
    (hsquare : M.cols = M.rows) (hroom : M.rows < addressLimit)
    (hpopulation : 0 < s.genetic.populationSize)
    (hok : ∀ N ∈ [M, M.transpose], ∀ rows cols, IsPermutation rows M.rows →
      IsPermutation cols M.rows →
      ∃ k, (base.reduce G? (N.relabel rows cols) (some (Circuit.empty M.rows))).outcome = .ok k) :
    ∃ c₀, (base.reduce G? M (some (Circuit.empty M.rows))).circuit = some c₀ ∧
      (let run := (Method.genetic base s).reduce G? M (some (Circuit.empty M.rows))
        let task : Placement.Task := ⟨M, base.reduce, G?, s.metric, true, true⟩
        ∃ k c, run.outcome = .ok k ∧ run.circuit = some c ∧
          s.metric.score c ≤ s.metric.score c₀ ∧
          ∃ final events p d, Genetic.find s.genetic task.fitness M.rows s.genetic.generations
              (Genetic.State.start (s.generator 0)) = (final, events, p) ∧
            final.best? = some ⟨s.metric.score c, p⟩ ∧
            task.circuit p = some d ∧ d.gates = c.gates) ∧
      (s.swarm.swarmSize < addressLimit →
        let run := (Method.swarm base s).reduce G? M (some (Circuit.empty M.rows))
        ∃ k c, run.outcome = .ok k ∧ run.circuit = some c ∧
          ∃ solution events d, swarmPlacement base.reduce s G? M = (.ok solution, events) ∧
            solution.circuits = [d] ∧ d.gates = c.gates ∧
            solution.score = min (s.metric.score c) infeasible ∧
            solution.score ≤ s.metric.score c₀ ∧
            (s.metric.score c ≤ infeasible ∨ s.metric.score c₀ < infeasible →
              s.metric.score c ≤ s.metric.score c₀ ∧ solution.score = s.metric.score c)) := by
  have hM : base.reduce.Places G? M.rows M := places_of_ok hbase rfl hsquare (hok M (by simp))
  have hT : base.reduce.Places G? M.rows M.transpose :=
    places_of_ok hbase hsquare rfl (hok M.transpose (by simp))
  obtain ⟨c₀, hc₀⟩ := hM.makes_self
  refine ⟨c₀, hc₀.circuit_eq, ?_, fun hswarm => ?_⟩
  · obtain ⟨final, events, p, d, hfind, hp, hcircuit, hd, hbest, hle, hreduce⟩ :=
      genetic_settles hM hroom hpopulation
    obtain ⟨k, c, hk, hc, hgates⟩ := reduceRelabelled_gates hM hp hp events hd
    have hscore : s.metric.score d = s.metric.score c := s.metric.score_congr hgates
    have hle₀ := hle c₀ hc₀
    rw [hscore] at hbest hle₀
    dsimp only
    rw [hreduce]
    exact ⟨k, c, hk, hc, hle₀, final, events, p, d, hfind, hbest, hcircuit, hgates⟩
  · obtain ⟨solution, events, initial, output, d, hplacement, hinitial, hsettles, hle, hreduce⟩ :=
      swarm_settles hM hroom hpopulation hT hswarm
    obtain ⟨k, c, hk, hc, hgates⟩ :=
      reduceRelabelled_gates hM hsettles.isPermutation hinitial events hsettles.makes
    have hscore : s.metric.score d = s.metric.score c := s.metric.score_congr hgates
    have hnoted : solution.score = min (s.metric.score c) infeasible := by
      rw [hsettles.solution_eq, ← hscore]
    have hle₀ := hle c₀ hc₀
    dsimp only
    rw [hreduce]
    refine ⟨k, c, hk, hc, solution, events, { d with layout := some ⟨output, initial⟩ },
      hplacement, congrArg Solution.circuits hsettles.solution_eq, hgates, hnoted, hle₀, ?_⟩
    intro hexact
    omega

/-- A singular matrix of three rows, whose circuit left in place has three layers. -/
theorem search_never_worse_singular :
    let M := ParityMatrix.ofFn 3 3 fun r c => c == r || c == (r + 1) % 3
    let s := SearchSettings.default
    (Method.gauss true).IsElimination ∧ M.cols = M.rows ∧ M.rows < addressLimit ∧
      0 < s.genetic.populationSize ∧ s.swarm.swarmSize < addressLimit ∧
      ((Method.gauss true).reduce none M (some (Circuit.empty M.rows))).outcome.toOption = some 2 ∧
      ∃ c d, ((Method.genetic (.gauss true) s).reduce none M
          (some (Circuit.empty M.rows))).circuit = some c ∧ s.metric.score c ≤ 30003 ∧
        ((Method.swarm (.gauss true) s).reduce none M
          (some (Circuit.empty M.rows))).circuit = some d ∧ s.metric.score d ≤ 30003 := by
  intro M s
  refine ⟨trivial, rfl, by decide, by decide, by decide, by decide +kernel, ?_⟩
  obtain ⟨c₀, hc₀, ⟨_, c, _, hc, hle, _⟩, hswarm⟩ :=
    search_never_worse (show (Method.gauss true).IsElimination from trivial) s (M := M) rfl
      (by decide) (by decide)
      fun N hN rows cols _ _ => gauss_ok_relabel true none rfl N hN rows cols
  obtain ⟨_, d, _, hd, _, _, _, _, _, _, _, _, hexact⟩ := hswarm (by decide)
  have hscore : s.metric.score c₀ = 30003 := by
    have heval : ((Method.gauss true).reduce none M (some (Circuit.empty M.rows))).circuit.map
        s.metric.score = some 30003 := by decide +kernel
    rw [hc₀] at heval
    exact Option.some.inj heval
  rw [hscore] at hle hexact
  exact ⟨c, d, hc, hle, hd, (hexact (.inr (by decide))).1⟩

/-- **Too many particles to be held**: the elimination succeeds on every relabelling of a matrix of
one row, and the largest swarm still breaks its search. -/
theorem search_breaks_largest_swarm :
    let s : SearchSettings := { SearchSettings.default with
      swarm := { Swarm.Settings.default with swarmSize := 18446744073709551615 } }
    let M := identity 1
    (Method.gauss true).IsElimination ∧ M.cols = M.rows ∧ M.rows < addressLimit ∧
      0 < s.genetic.populationSize ∧
      (∀ N ∈ [M, M.transpose], ∀ rows cols, IsPermutation rows M.rows → IsPermutation cols M.rows →
        ∃ k, ((Method.gauss true).reduce none (N.relabel rows cols)
          (some (Circuit.empty M.rows))).outcome = .ok k) ∧
      ((Method.swarm (.gauss true) s).reduce none M (some (Circuit.empty M.rows))).outcome =
        .error (.broken .capacity) := by
  intro s M
  refine ⟨trivial, rfl, by decide, by decide, ?_, ?_⟩
  · exact fun N hN rows cols _ _ => gauss_ok_relabel true none rfl N hN rows cols
  · exact swarm_breaks (solves_gauss none 1) (isInvertible_identity 1) (by decide) (by decide)
      (by decide) _

end Method

end CnotSynthesis
