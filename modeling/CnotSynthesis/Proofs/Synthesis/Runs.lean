import CnotSynthesis.Proofs.Elimination.Factoring
import CnotSynthesis.Proofs.Synthesis

/-! # Runs of a synthesis that succeed

What a synthesis has done if it ends in a result, for any matrix, graph and settings.

* **`Setup.routingGraph_cases`** — the graph that is worked on.
* **`Setup.Produces s G? M o`** — the elimination of `M` goes through with outcome `o`.
* **`Setup.run_eq_ok_iff`** — a synthesis succeeds exactly if the elimination of the matrix goes
  through and, where the transpose is tried, that of the transpose does too.
* **`Setup.baseMethod_factors`** — an elimination that goes through factors its matrix; hence
  **`Setup.Produces.factors`** for the modes without a placement search. -/

namespace CnotSynthesis

namespace Synthesis

open ParityMatrix Chain

namespace Setup

variable {s : Setup} {n : ℕ} {G? : Option CouplingGraph} {M : ParityMatrix} {o : Outcome}

/-! ## Graphs -/

/-- **The graph that is worked on**: the given one, a complete one, or none. -/
theorem routingGraph_cases (h : s.routingGraph n = .ok G?) :
    (∃ G, s.graph = some G ∧ G? = some G ∧ G.size = n) ∨
    (s.graph = none ∧ s.settings.mode.respectsCoupling = true ∧
      G? = some (CouplingGraph.complete n)) ∨
    (s.graph = none ∧ s.settings.mode.respectsCoupling = false ∧ G? = none) := by
  unfold routingGraph at h
  cases hgraph : s.graph with
  | some G =>
    rw [hgraph] at h
    dsimp only [graphFor] at h
    split at h
    · next hsize => exact .inl ⟨G, rfl, (Except.ok.inj h).symm, hsize⟩
    · cases h
  | none =>
    rw [hgraph] at h
    dsimp only at h
    split at h
    · next hcoupled =>
      refine .inr (.inl ⟨rfl, hcoupled, ?_⟩)
      unfold CouplingGraph.complete? at h
      cases hroom : requireRoom n with
      | error e =>
        rw [hroom] at h
        cases h
      | ok _ =>
        rw [hroom] at h
        exact (Except.ok.inj h).symm
    · next hfree => exact .inr (.inr ⟨rfl, by simpa using hfree, (Except.ok.inj h).symm⟩)

/-- A graph that was given is the one that is worked on. -/
theorem routingGraph_given (h : s.routingGraph n = .ok G?) {G : CouplingGraph} (hG : G ∈ s.graph) :
    G? = some G ∧ G.size = n := by
  have hG : s.graph = some G := hG
  rcases routingGraph_cases h with ⟨H, hH, hrouting, hsize⟩ | ⟨hnone, _⟩ | ⟨hnone, _⟩
  · obtain rfl : H = G := Option.some.inj (hH.symm.trans hG)
    exact ⟨hrouting, hsize⟩
  · rw [hG] at hnone
    cases hnone
  · rw [hG] at hnone
    cases hnone

/-- A given graph of the right size is the one to route on. -/
theorem routingGraph_of_given {G : CouplingGraph} (hG : G ∈ s.graph) (hsize : G.size = n) :
    s.routingGraph n = .ok (some G) := by
  have hG : s.graph = some G := hG
  unfold routingGraph
  rw [hG]
  dsimp only [graphFor]
  rw [if_pos hsize]
  rfl

/-- Where couplings matter there is a graph, and it is connected if the given one is. -/
theorem routingGraph_connected (h : s.routingGraph n = .ok G?)
    (hcoupled : s.settings.mode.respectsCoupling = true)
    (hgraph : ∀ G ∈ s.graph, G.isConnected = true) :
    ∃ G, G? = some G ∧ G.size = n ∧ G.isConnected = true ∧
      (G ∈ s.graph ∨ s.graph = none ∧ G = CouplingGraph.complete n) := by
  rcases routingGraph_cases h with ⟨G, hG, hrouting, hsize⟩ | ⟨hnone, _, hrouting⟩ | ⟨_, hfree, _⟩
  · exact ⟨G, hrouting, hsize, hgraph G hG, .inl hG⟩
  · have hsuits := CouplingGraph.suits_complete .byGraph n
    exact ⟨_, hrouting, hsuits.size_eq, hsuits.connected, .inr ⟨hnone, rfl⟩⟩
  · rw [hcoupled] at hfree
    cases hfree

/-! ## Eliminations -/

/-- The elimination of a matrix from an empty circuit. -/
def elimination (s : Setup) (G? : Option CouplingGraph) (M : ParityMatrix) : Run ℕ :=
  s.method.reduce G? M (some (Circuit.empty M.rows))

/-- **The elimination goes through** with the given outcome. -/
structure Produces (s : Setup) (G? : Option CouplingGraph) (M : ParityMatrix) (o : Outcome) :
    Prop where
  outcome_eq : (s.elimination G? M).outcome = .ok o.rank
  circuit_eq : (s.elimination G? M).circuit.getD (Circuit.empty M.rows) = o.circuit
  matrix_eq : (s.elimination G? M).matrix = o.matrix

/-- An elimination that succeeds goes through with one outcome. -/
theorem exists_produces {k : ℕ} (h : (s.elimination G? M).outcome = .ok k) :
    ∃ o, s.Produces G? M o :=
  ⟨⟨_, _, k⟩, h, rfl, rfl⟩

/-- There is one outcome only. -/
theorem Produces.unique {o' : Outcome} (h : s.Produces G? M o) (h' : s.Produces G? M o') :
    o = o' := by
  have hrank := Except.ok.inj (h.outcome_eq.symm.trans h'.outcome_eq)
  have hcircuit := h.circuit_eq.symm.trans h'.circuit_eq
  have hmatrix := h.matrix_eq.symm.trans h'.matrix_eq
  cases o
  cases o'
  simp_all

/-- What is reported does not matter for the outcome. -/
theorem reduceFresh_run (log : List Event) :
    (s.reduceFresh G? M).run.run log =
      ((s.elimination G? M).outcome.map fun rank =>
        ⟨(s.elimination G? M).circuit.getD (Circuit.empty M.rows), (s.elimination G? M).matrix,
          rank⟩,
        log ++ (s.elimination G? M).events) := by
  unfold reduceFresh elimination
  dsimp only
  cases (s.method.reduce G? M (some (Circuit.empty M.rows))).outcome <;> rfl

/-- When a fresh reduction succeeds, whatever was reported before. -/
theorem reduceFresh_eq_ok_iff (log : List Event) :
    (∃ log', (s.reduceFresh G? M).run.run log = (.ok o, log')) ↔ s.Produces G? M o := by
  rw [reduceFresh_run]
  constructor
  · rintro ⟨log', h⟩
    obtain ⟨houtcome, _⟩ := Prod.ext_iff.mp h
    cases hrank : (s.elimination G? M).outcome with
    | error e =>
      rw [hrank] at houtcome
      cases houtcome
    | ok rank =>
      rw [hrank] at houtcome
      cases houtcome
      exact ⟨hrank, rfl, rfl⟩
  · rintro ⟨houtcome, hcircuit, hmatrix⟩
    rw [houtcome, hcircuit, hmatrix]
    exact ⟨_, rfl⟩

/-! ## Syntheses -/

/-- The outcome for the matrix, with the circuit of the transpose if that is cheaper. -/
def keepCheaper (s : Setup) (direct transposed : Outcome) : Outcome :=
  match s.cheaperTranspose? direct transposed with
  | some circuit => { direct with circuit := circuit }
  | none => direct

/-- A run: reduce, try the transpose if that is asked for, and keep the cheaper one. -/
theorem run_eq : s.run M = do
    let G? ← s.routingGraph M.rows
    let direct ← s.reduceFresh G? M
    if s.settings.triesTranspose && direct.matrix.isIdentity then
      let transposed ← s.reduceFresh G? M.transpose
      return s.keepCheaper direct transposed
    else return direct := by
  unfold run
  refine bind_congr fun G? => bind_congr fun direct => ?_
  split
  · refine bind_congr fun transposed => ?_
    unfold keepCheaper
    cases s.cheaperTranspose? direct transposed <;> rfl
  · rfl

/-- **A synthesis succeeds exactly if its eliminations go through.** -/
theorem run_eq_ok_iff (log : List Event) :
    (∃ log', (s.run M).run.run log = (.ok o, log')) ↔
      ∃ G? direct, s.routingGraph M.rows = .ok G? ∧ s.Produces G? M direct ∧
        if s.settings.triesTranspose && direct.matrix.isIdentity then
          ∃ transposed, s.Produces G? M.transpose transposed ∧ o = s.keepCheaper direct transposed
        else o = direct := by
  rw [run_eq, Reporting.lift_bind_eq_ok_iff]
  constructor
  · rintro ⟨G?, hrouting, h⟩
    obtain ⟨direct, log₁, hdirect, h⟩ := Reporting.bind_eq_ok_iff.mp h
    refine ⟨G?, direct, hrouting, (reduceFresh_eq_ok_iff log).mp ⟨_, hdirect⟩, ?_⟩
    split at h
    · next htries =>
      obtain ⟨transposed, log₂, htransposed, h⟩ := Reporting.bind_eq_ok_iff.mp h
      rw [if_pos htries]
      exact ⟨transposed, (reduceFresh_eq_ok_iff log₁).mp ⟨_, htransposed⟩,
        Reporting.pure_eq_ok_iff.mp h⟩
    · next htries =>
      rw [if_neg htries]
      exact Reporting.pure_eq_ok_iff.mp h
  · rintro ⟨G?, direct, hrouting, hdirect, h⟩
    obtain ⟨log₁, hdirect⟩ := (reduceFresh_eq_ok_iff log).mpr hdirect
    refine ⟨G?, hrouting, Reporting.bind_eq_ok_iff.mpr ⟨direct, log₁, hdirect, ?_⟩⟩
    split at h
    · next htries =>
      obtain ⟨transposed, htransposed, h⟩ := h
      obtain ⟨log₂, htransposed⟩ := (reduceFresh_eq_ok_iff log₁).mpr htransposed
      rw [if_pos htries]
      exact Reporting.bind_eq_ok_iff.mpr
        ⟨transposed, log₂, htransposed, Reporting.pure_eq_ok_iff.mpr h⟩
    · next htries =>
      rw [if_neg htries]
      exact Reporting.pure_eq_ok_iff.mpr h

/-- Where the transpose is not tried a synthesis is one elimination. -/
theorem run_eq_ok_iff_of_not_tries (htries : s.settings.triesTranspose = false)
    (log : List Event) :
    (∃ log', (s.run M).run.run log = (.ok o, log')) ↔
      ∃ G?, s.routingGraph M.rows = .ok G? ∧ s.Produces G? M o := by
  rw [run_eq_ok_iff, htries]
  constructor
  · rintro ⟨G?, direct, hrouting, hdirect, rfl⟩
    exact ⟨G?, hrouting, hdirect⟩
  · rintro ⟨G?, hrouting, h⟩
    exact ⟨G?, o, hrouting, h, rfl⟩

/-! ## What an elimination leaves -/

/-- **An elimination that goes through factors its matrix**, in every mode but that of free vertex
elimination. -/
theorem baseMethod_factors (hmode : s.settings.mode ≠ .permRowCol) {k : ℕ}
    (hk : (s.settings.baseMethod.reduce G? M (some (Circuit.empty M.rows))).outcome = .ok k) :
    ∃ c, (s.settings.baseMethod.reduce G? M (some (Circuit.empty M.rows))).Factors M
      (s.Allowed G? M.rows) c := by
  unfold Allowed
  rcases s.settings.baseMethod_cases with ⟨hfree, hbase⟩ | ⟨hcoupled, hbase⟩ | ⟨hrowCol, hbase⟩ |
    ⟨hperm, _⟩
  · rw [hbase] at hk ⊢
    rw [hfree]
    exact Method.factors_gauss _ _ hk
  · rw [hbase] at hk ⊢
    rw [hcoupled]
    exact Method.factors_steiner _ _ hk
  · rw [hbase] at hk ⊢
    rw [hrowCol]
    exact Method.factors_rowCol hk
  · exact absurd hperm hmode

/-- The mode is one of the two eliminations by rows, used as they are. -/
def ReducesRows (s : Setup) : Prop := s.settings.mode = .gauss ∨ s.settings.mode = .steiner

/-- Where rows are reduced, the method is its own base. -/
theorem method_eq_baseMethod (hmode : s.ReducesRows) : s.method = s.settings.baseMethod := by
  unfold method Settings.method
  rcases hmode with hmode | hmode <;> rw [hmode]

/-- **What an elimination by rows leaves.** -/
theorem Produces.factors (h : s.Produces G? M o) (hmode : s.ReducesRows) :
    (s.elimination G? M).Factors M (s.Allowed G? M.rows) o.circuit := by
  have hmethod := method_eq_baseMethod hmode
  have hoption : s.settings.mode ≠ .permRowCol := by
    rcases hmode with hmode | hmode <;> simp [hmode]
  have hk := h.outcome_eq
  have hcircuit := h.circuit_eq
  unfold elimination at hk hcircuit ⊢
  rw [hmethod] at hk hcircuit ⊢
  obtain ⟨c, hfactors⟩ := baseMethod_factors hoption hk
  rw [hfactors.circuit_eq] at hcircuit
  exact hcircuit ▸ hfactors

/-- **The elimination of the Steiner mode**, on a graph of the right size, is its plan. -/
theorem elimination_steiner {G : CouplingGraph} (hmode : s.settings.mode = .steiner)
    (hsize : G.size = M.rows) :
    let plan := (Reduction.steiner s.settings.pivotOrder s.settings.fullReduce G).plan M
    (∀ k, (s.elimination (some G) M).outcome = .ok k ↔ plan.outcome = .ok k) ∧
      (s.elimination (some G) M).matrix = plan.work.matrix := by
  intro plan
  have hmethod : s.method = .steiner s.settings.fullReduce s.settings.pivotOrder := by
    unfold method Settings.method Settings.baseMethod
    rw [hmode]
  unfold elimination
  rw [hmethod, Method.reduce_steiner_eq hsize _ _ (by simp [Circuit.empty])]
  exact ⟨fun k => mapError_eq_ok_iff, rfl⟩

/-- The elimination of Gaussian mode. -/
theorem elimination_gauss (hmode : s.settings.mode = .gauss) :
    s.elimination G? M =
      (Method.gauss s.settings.fullReduce).reduce G? M (some (Circuit.empty M.rows)) := by
  unfold elimination method Settings.method Settings.baseMethod
  rw [hmode]

end Setup

end Synthesis

end CnotSynthesis
