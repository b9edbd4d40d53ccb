import CnotSynthesis.Method
import CnotSynthesis.Proofs.Placement.Chain

/-! # Placement searches solve what their elimination solves

Whatever placement a search settles on, the relabelled matrix is solved, and the placement attached
to the circuit makes it a circuit for the matrix itself.

* **`Method.reduceRelabelled_solves`** — reducing a relabelled matrix.
* **`Method.genetic_solves`**, **`Method.swarm_solves`** — the two searches. -/

namespace CnotSynthesis

namespace Method

open ParityMatrix Chain

variable {reduce : Reducer} {base : Method} {s : SearchSettings} {G? : Option CouplingGraph}
  {M : ParityMatrix} {E : ℕ → ℕ → Prop} {rows cols : List ℕ}

/-! ## Relabelled reductions -/

/-- **Attaching placements** to a circuit composes them with its layout. -/
theorem attachPlacement_eq {n : ℕ} {c : Circuit} (hc : c.WellFormed) (hqubits : c.qubits = n)
    (hrows : IsPermutation rows n) (hcols : IsPermutation cols n) :
    attachPlacement rows cols c =
      .ok { c with layout := some ((c.layout.getD (Layout.identity n)).after rows cols) } := by
  obtain ⟨hrow, hcol⟩ := hc.isPermutation_layout hqubits
  unfold attachPlacement
  rw [hrows.length_eq]
  dsimp only
  rw [Permutation.compose?_eq _ (hrows.length_eq ▸ hrow.lt),
    Permutation.compose?_eq _ (hcols.length_eq ▸ hcol.lt)]
  change (c.setLayout ⟨_, _⟩).mapError _ = _
  rw [Circuit.setLayout_eq (hqubits ▸ hrows.compose hrow) (hqubits ▸ hcols.compose hcol)]
  rfl

/-- **Relabel, reduce, attach**: the circuit made of the relabelled matrix, with the placements in
its layout. -/
theorem reduceRelabelled_eq (hrows : IsPermutation rows M.rows) (hcols : IsPermutation cols M.cols)
    (hsquare : M.cols = M.rows) (events : List Event) {c : Circuit}
    (h : (reduce G? (M.relabel rows cols) (some (Circuit.empty M.rows))).Makes M.rows c) :
    reduceRelabelled reduce G? M (some (Circuit.empty M.rows)) rows cols events =
      ⟨(reduce G? (M.relabel rows cols) (some (Circuit.empty M.rows))).matrix,
        some { c with layout := some ((c.layout.getD (Layout.identity M.rows)).after rows cols) },
        events, (reduce G? (M.relabel rows cols) (some (Circuit.empty M.rows))).outcome⟩ := by
  have hattach := attachPlacement_eq h.wellFormed h.qubits_eq hrows (hsquare ▸ hcols)
  obtain ⟨k, hk⟩ := h.outcome_ok
  simp only [reduceRelabelled, relabel?_eq hrows hcols, Run.mapCircuit, hk, h.circuit_eq, hattach]

/-- **Relabel, reduce, attach**: success comes from inside. -/
theorem reduceRelabelled_of_outcome {c? : Option Circuit} {events : List Event} {k : ℕ}
    (hk : (reduceRelabelled reduce G? M c? rows cols events).outcome = .ok k) :
    ∃ N, M.relabel? rows cols = .ok N ∧
      (∀ c?, reduceRelabelled reduce G? M c? rows cols events =
        Run.mapCircuit (fun _ => attachPlacement rows cols) ⟨(reduce G? N c?).matrix,
          (reduce G? N c?).circuit, events, (reduce G? N c?).outcome⟩) ∧
      (reduce G? N c?).outcome = .ok k := by
  unfold reduceRelabelled at hk ⊢
  cases hrelabel : M.relabel? rows cols with
  | error e =>
    rw [hrelabel] at hk
    cases hk
  | ok N =>
    rw [hrelabel] at hk
    exact ⟨N, rfl, fun _ => rfl, Run.mapCircuit_ok (r := ⟨_, _, events, _⟩) hk⟩

/-- If the relabelled matrix is solved, so is the matrix. -/
theorem reduceRelabelled_solves (hM : M.IsInvertible) (hrows : IsPermutation rows M.rows)
    (hcols : IsPermutation cols M.rows) (events : List Event) {c : Circuit}
    (h : (reduce G? (M.relabel rows cols) (some (Circuit.empty M.rows))).Solves
      (M.relabel rows cols) E c) :
    ∃ d, (reduceRelabelled reduce G? M (some (Circuit.empty M.rows)) rows cols events).Solves
        M E d ∧
      (reduceRelabelled reduce G? M (some (Circuit.empty M.rows)) rows cols events).matrix =
        (reduce G? (M.relabel rows cols) (some (Circuit.empty M.rows))).matrix := by
  rw [reduceRelabelled_eq hrows (hM.cols_eq ▸ hcols) hM.cols_eq events (h.makes rfl)]
  exact ⟨_, ⟨h.outcome_eq, rfl, h.realises.placeOver hM.cols_eq hrows hcols⟩, rfl⟩

/-- A search around an elimination that solves every invertible matrix: the placements do not
matter. -/
theorem reduceRelabelled_eq_identity (hsolves : reduce.Solves G? M.rows E) (hM : M.IsInvertible)
    (hrows : IsPermutation rows M.rows) (hcols : IsPermutation cols M.rows) (events : List Event) :
    ∃ c, (reduceRelabelled reduce G? M (some (Circuit.empty M.rows)) rows cols events).Solves
        M E c ∧
      (reduceRelabelled reduce G? M (some (Circuit.empty M.rows)) rows cols events).matrix =
        identity M.rows := by
  obtain ⟨c, hsolved, _, hmatrix⟩ := hsolves (M.relabel rows cols) rfl (hM.relabel hrows hcols)
  rw [← hmatrix]
  exact reduceRelabelled_solves hM hrows hcols events hsolved

/-! ## Searches -/

/-- A genetic search is carried out if the elimination makes a circuit of the matrix left in
place. -/
theorem geneticPlacement_eq_find (hsquare : M.cols = M.rows) (hroom : M.rows < addressLimit)
    {c : Circuit} (hmakes : (reduce G? M (some (Circuit.empty M.rows))).Makes M.rows c) :
    geneticPlacement reduce s G? M = .ok (Genetic.find s.genetic
      (Placement.Task.fitness ⟨M, reduce, G?, s.metric, true, true⟩) M.rows s.genetic.generations
      (Genetic.State.start (s.generator 0))).2 := by
  obtain ⟨haxes, hcheck⟩ := Placement.Task.check_range
    (t := ⟨M, reduce, G?, s.metric, true, true⟩) rfl hsquare hroom hmakes
  unfold geneticPlacement
  dsimp only
  rw [haxes, hcheck]
  rfl

/-- A genetic search settles on a placement. -/
theorem geneticPlacement_eq (hsolves : reduce.Solves G? M.rows E) (hM : M.IsInvertible)
    (hroom : M.rows < addressLimit) (hpopulation : 0 < s.genetic.populationSize) :
    ∃ events p, geneticPlacement reduce s G? M = .ok (events, p) ∧ IsPermutation p M.rows := by
  obtain ⟨c, hsolved, _⟩ := hsolves M rfl hM
  rw [geneticPlacement_eq_find hM.cols_eq hroom (hsolved.makes rfl)]
  exact ⟨_, _, rfl, Genetic.isPermutation_find hpopulation _ _ _ _⟩

/-- **A genetic search around an elimination that solves** every invertible matrix. -/
theorem genetic_solves (hsolves : base.reduce.Solves G? M.rows E) (hM : M.IsInvertible)
    (hroom : M.rows < addressLimit) (hpopulation : 0 < s.genetic.populationSize) :
    ∃ c, ((Method.genetic base s).reduce G? M (some (Circuit.empty M.rows))).Solves M E c ∧
      ((Method.genetic base s).reduce G? M (some (Circuit.empty M.rows))).matrix =
        identity M.rows := by
  obtain ⟨events, p, hplacement, hp⟩ := geneticPlacement_eq hsolves hM hroom hpopulation
  rw [reduce_genetic_of_ok _ hplacement]
  exact reduceRelabelled_eq_identity hsolves hM hp hp events

/-- A swarm search of one matrix is that of its engine. -/
theorem swarmPlacement_eq_swarm (hsquare : M.cols = M.rows) :
    swarmPlacement reduce s G? M = (Engine.swarm ⟨reduce, false, G?, s⟩ M.rows [M]).run.run [] := by
  unfold swarmPlacement
  dsimp only
  rw [Engine.synthesize_swarm_singleton _ hsquare]

/-- A swarm search settles on placements. -/
theorem swarmPlacement_eq (hsolves : reduce.Solves G? M.rows E) (hM : M.IsInvertible)
    (hroom : M.rows < addressLimit) (hpopulation : 0 < s.genetic.populationSize)
    (hswarm : s.swarm.swarmSize < addressLimit) :
    ∃ solution events, swarmPlacement reduce s G? M = (.ok solution, events) ∧
      ∀ p ∈ solution.placements, IsPermutation p M.rows := by
  have hworks : Engine.Works ⟨reduce, false, G?, s⟩ M.rows E := ⟨hsolves, hroom, hpopulation⟩
  rw [swarmPlacement_eq_swarm hM.cols_eq]
  obtain ⟨solution, events, hrun, hchains⟩ := (Engine.swarm_yields (F := False) hworks hswarm
    (Engine.solvable_singleton hM) (List.cons_ne_nil _ _)).run_eq []
  exact ⟨solution, events, hrun, hchains.links.isPermutation⟩

/-- **A swarm search around an elimination that solves** every invertible matrix. -/
theorem swarm_solves (hsolves : base.reduce.Solves G? M.rows E) (hM : M.IsInvertible)
    (hroom : M.rows < addressLimit) (hpopulation : 0 < s.genetic.populationSize)
    (hswarm : s.swarm.swarmSize < addressLimit) :
    ∃ c, ((Method.swarm base s).reduce G? M (some (Circuit.empty M.rows))).Solves M E c ∧
      ((Method.swarm base s).reduce G? M (some (Circuit.empty M.rows))).matrix =
        identity M.rows := by
  obtain ⟨solution, events, hplacement, hperms⟩ :=
    swarmPlacement_eq hsolves hM hroom hpopulation hswarm
  -- a placement that is missing is the identity
  have hperm : ∀ i : ℕ,
      IsPermutation (solution.placements[i]?.getD (List.range M.rows)) M.rows := by
    intro i
    cases h : solution.placements[i]? with
    | none => exact isPermutation_range M.rows
    | some p => exact hperms p (List.mem_of_getElem? h)
  rw [reduce_swarm_of_ok _ hplacement]
  exact reduceRelabelled_eq_identity hsolves hM (hperm 1) (hperm 0) events

/-- **A swarm that cannot be held** breaks the search, around any elimination that solves. -/
theorem swarm_breaks (hsolves : base.reduce.Solves G? M.rows E) (hM : M.IsInvertible)
    (hroom : M.rows < addressLimit) (hpopulation : 0 < s.genetic.populationSize)
    (hswarm : addressLimit ≤ s.swarm.swarmSize) (c? : Option Circuit) :
    ((Method.swarm base s).reduce G? M c?).outcome = .error (.broken .capacity) := by
  have hworks : Engine.Works ⟨base.reduce, false, G?, s⟩ M.rows E := ⟨hsolves, hroom, hpopulation⟩
  obtain ⟨log, hrun⟩ := Engine.swarm_breaks hworks hswarm (Engine.solvable_singleton hM)
    (List.cons_ne_nil _ _) []
  rw [reduce_swarm_of_error c? ((swarmPlacement_eq_swarm hM.cols_eq).trans hrun)]

end Method

end CnotSynthesis
