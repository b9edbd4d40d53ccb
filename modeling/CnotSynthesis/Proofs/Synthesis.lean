import CnotSynthesis.Proofs.Method
import CnotSynthesis.Synthesis

/-! # Synthesis of invertible matrices

* **`Setup.Ready s n`** — settings in range that reduce fully, and a connected graph on `n` qubits
  or none.
* **`Settings.baseMethod_cases`**, **`Settings.method_cases`** — what a mode stands for.
* **`Setup.method_solves`** — the method of any mode solves invertible matrices.
* **`Setup.run_yields`** — so does the synthesis, with or without the trial of the transpose.
* **`Setup.run_realises`** — the circuit, the matrix left and the couplings, for every mode, graph,
  matrix and outcome of the draws.
* **`Setup.run_breaks`** — only a swarm that cannot be held goes wrong, and it always does. -/

namespace CnotSynthesis

open ParityMatrix

/-! ## Permutation matrices read back -/

/-- All values are there exactly if each one is. -/
theorem mapM_eq_some_iff {α β : Type} {f : α → Option β} {xs : List α} {ys : List β} :
    xs.mapM f = some ys ↔ xs.map f = ys.map some := by
  induction xs generalizing ys with
  | nil => cases ys <;> simp
  | cons x xs ih =>
    rw [List.mapM_cons, List.map_cons]
    cases f x with
    | none => cases ys <;> simp
    | some y =>
      cases hrest : xs.mapM f with
      | none => cases ys <;> simp [← ih, hrest]
      | some rest => cases ys <;> simp [← ih, hrest]

namespace ParityMatrix.PlacesOnes

variable {N : ParityMatrix} {output : List ℕ}

/-- The only one of a column. -/
theorem colOnes_eq (h : N.PlacesOnes output) {c : ℕ} (hc : c < N.rows) :
    N.colOnes c = [output.getD c 0] := by
  refine List.perm_singleton.mp ((List.perm_ext_iff_of_nodup ?_ (List.nodup_singleton _)).mpr ?_)
  · exact List.nodup_range.filter _
  · intro r
    rw [mem_colOnes, h.entry r c hc, decide_eq_true_iff, List.mem_singleton]

/-- **The permutation is read back** off the matrix. -/
theorem permutation?_eq (h : N.PlacesOnes output) : N.permutation? = some output := by
  have hsquare : N.isSquare = true := beq_iff_eq.mpr h.square.symm
  have houtput : (List.range N.cols).map (fun c => output.getD c 0) = output := by
    rw [h.square, ← h.perm.length_eq]
    exact Permutation.compose_range output
  unfold permutation?
  rw [hsquare]
  change ((List.range N.cols).mapM _ >>= fun perm => if perm.Nodup then some perm else none) = _
  refine Option.bind_eq_some_iff.mpr ⟨output, mapM_eq_some_iff.mpr ?_, if_pos h.perm.nodup⟩
  conv_rhs => rw [← houtput, List.map_map]
  refine List.map_congr_left fun c hc => ?_
  rw [h.colOnes_eq (h.square ▸ List.mem_range.mp hc)]
  rfl

end ParityMatrix.PlacesOnes

/-! ## Graphs -/

/-- Routes have no direction. -/
theorem Routed.symm {G? : Option CouplingGraph} {n t u : ℕ} (h : Routed G? n t u) :
    Routed G? n u t := by
  obtain ⟨⟨ht, hu, hne⟩, hcoupled⟩ := h
  refine ⟨⟨hu, ht, Ne.symm hne⟩, fun G hG => ?_⟩
  exact (G.hasEdge_comm u t).trans (hcoupled G hG)

/-! ## Modes -/

/-- What the mode leaves of an invertible matrix of `n` rows. -/
def Mode.Leaves (mode : Mode) (n : ℕ) (N : ParityMatrix) : Prop :=
  if mode = .permRowCol then N.rows = n ∧ ∃ output, N.PlacesOnes output else N = identity n

namespace Settings

variable (s : Settings) (source : ℕ → Generator)

/-- **The elimination of a mode.** -/
theorem baseMethod_cases :
    (s.mode.respectsCoupling = false ∧ s.baseMethod = .gauss s.fullReduce) ∨
    (s.mode.respectsCoupling = true ∧ s.baseMethod = .steiner s.fullReduce s.pivotOrder) ∨
    (s.mode = .rowCol ∧ s.baseMethod = .rowCol) ∨
    (s.mode = .permRowCol ∧
      s.baseMethod = .permRowCol lightestRow lightestColumn s.bestFirst) := by
  unfold baseMethod
  cases s.mode <;> simp [Mode.respectsCoupling]

/-- **The search of a mode**, if there is one. -/
theorem method_cases :
    s.method source = .genetic s.baseMethod (s.search source) ∨
    ((s.mode = .swarmSteiner ∨ s.mode = .swarmGauss) ∧
      s.method source = .swarm s.baseMethod (s.search source)) ∨
    s.method source = s.baseMethod := by
  unfold method
  cases s.mode <;> simp

/-- Passing the check, in the form that is decided. -/
theorem check_eq_ok {s : Settings} (h : s.check.toOption.isSome = true) : s.check = .ok () := by
  cases hcheck : s.check with
  | ok _ => rfl
  | error e =>
    rw [hcheck] at h
    cases h

/-- Checked settings allow a population. -/
theorem populationSize_pos {s : Settings} (h : s.check = .ok ()) :
    0 < s.genetic.populationSize := by
  by_contra hzero
  have hgenetic : s.genetic.check = .error (.populationTooSmall s.genetic.populationSize) := by
    unfold Genetic.Settings.check
    rw [if_pos (by omega)]
    rfl
  unfold check at h
  rw [hgenetic] at h
  cases h

end Settings

namespace Synthesis

open Chain

/-- **A setup that is ready** for invertible matrices of `n` rows. -/
structure Setup.Ready (s : Setup) (n : ℕ) : Prop where
  check : s.settings.check = .ok ()
  full : s.settings.fullReduce = true
  graph : ∀ G ∈ s.graph, G.Suits s.settings.pivotOrder n
  room : n < addressLimit

/-- If the mode searches with a swarm, the swarm can be held. -/
def Setup.HoldsSwarm (s : Setup) : Prop :=
  s.settings.mode = .swarmSteiner ∨ s.settings.mode = .swarmGauss →
    s.settings.swarm.swarmSize < addressLimit

/-- The row additions that the mode allows. -/
def Setup.Allowed (s : Setup) (G? : Option CouplingGraph) (n : ℕ) : ℕ → ℕ → Prop :=
  Routed (if s.settings.mode.respectsCoupling then G? else none) n

/-- **A solved matrix**: full rank, a circuit, and what the mode leaves. -/
structure Outcome.Solves (o : Outcome) (mode : Mode) (M : ParityMatrix) (E : ℕ → ℕ → Prop) :
    Prop where
  rank_eq : o.rank = M.rows
  realises : o.circuit.Realises M E
  leaves : mode.Leaves M.rows o.matrix

namespace Setup

variable {s : Setup} {n : ℕ} {F : Prop} {G? : Option CouplingGraph} {M : ParityMatrix}

/-- A graph on which the mode works: none is needed where couplings do not matter. -/
def Routes (s : Setup) (G? : Option CouplingGraph) (n : ℕ) : Prop :=
  s.settings.mode.respectsCoupling = true → ∃ G, G? = some G ∧ G.Suits s.settings.pivotOrder n

/-- The graph of a synthesis is the given one, or suits as well. -/
theorem routingGraph_eq (h : s.Ready n) :
    ∃ G?, s.routingGraph n = .ok G? ∧ s.Routes G? n ∧ ∀ G ∈ s.graph, G? = some G := by
  unfold routingGraph
  cases hgraph : s.graph with
  | some G =>
    have hsuits := h.graph G hgraph
    have hfor : graphFor (some G) n = .ok G := if_pos hsuits.size_eq
    refine ⟨some G, ?_, fun _ => ⟨G, rfl, hsuits⟩, fun H hH => hH⟩
    dsimp only
    rw [hfor]
    rfl
  | none =>
    dsimp only
    split
    · refine ⟨some (CouplingGraph.complete n), ?_, fun _ => ⟨_, rfl, ?_⟩, by simp⟩
      · unfold CouplingGraph.complete?
        rw [requireRoom_eq_ok h.room]
        rfl
      · exact CouplingGraph.suits_complete _ n
    · next hfree => exact ⟨none, rfl, fun hroutes => absurd hroutes hfree, by simp⟩

/-- The eliminations that end with the identity. -/
theorem baseMethod_solves (h : s.Ready n) (hroutes : s.Routes G? n)
    (hmode : s.settings.mode ≠ .permRowCol) :
    s.settings.baseMethod.reduce.Solves G? n (s.Allowed G? n) := by
  unfold Allowed
  rcases s.settings.baseMethod_cases with ⟨hfree, hbase⟩ | ⟨hcoupled, hbase⟩ | ⟨hrowCol, hbase⟩ |
    ⟨hperm, _⟩
  · rw [hbase, h.full, hfree]
    exact Method.solves_gauss G? n
  · obtain ⟨G, rfl, hG⟩ := hroutes hcoupled
    rw [hbase, h.full, hcoupled]
    exact Method.solves_steiner fun H hH => Option.some.inj hH ▸ hG
  · obtain ⟨G, rfl, hG⟩ := hroutes (by rw [hrowCol]; rfl)
    rw [hbase, hrowCol]
    exact Method.solves_rowCol fun H hH => Option.some.inj hH ▸ hG
  · exact absurd hperm hmode

/-- **The method of any mode solves** invertible matrices. -/
theorem method_solves (h : s.Ready M.rows) (hswarm : s.HoldsSwarm) (hroutes : s.Routes G? M.rows)
    (hM : M.IsInvertible) :
    ∃ c, (s.method.reduce G? M (some (Circuit.empty M.rows))).Solves M (s.Allowed G? M.rows) c ∧
      s.settings.mode.Leaves M.rows
        (s.method.reduce G? M (some (Circuit.empty M.rows))).matrix := by
  have hpopulation := Settings.populationSize_pos h.check
  unfold method Mode.Leaves
  by_cases hmode : s.settings.mode = .permRowCol
  · -- free vertex elimination is used as it is, never searched around
    obtain ⟨G, rfl, hG⟩ := hroutes (by rw [hmode]; rfl)
    have hmethod : s.settings.method s.source =
        .permRowCol lightestRow lightestColumn s.settings.bestFirst := by
      unfold Settings.method Settings.baseMethod
      rw [hmode]
    have hgraph : graphFor (some G) M.rows = .ok G := if_pos hG.size_eq
    obtain ⟨output, hok⟩ := Method.permute_exists_ok (guides_lightest G) s.settings.bestFirst hgraph
      hG.size_eq hG.connected hM
    obtain ⟨c, hpermutes⟩ := Method.permutes_of_ok hgraph hG.size_eq hM hok
    obtain ⟨hsolves, hmatrix⟩ := Method.permRowCol_solves hM.cols_eq hpermutes
    rw [hmethod, if_pos hmode, Allowed, hmode, hmatrix]
    exact ⟨_, hsolves, hpermutes.rows_eq, output, hpermutes.placesOnes⟩
  · have hbase := baseMethod_solves h hroutes hmode
    rw [if_neg hmode]
    rcases s.settings.method_cases s.source with hmethod | ⟨hsearch, hmethod⟩ | hmethod
    · rw [hmethod]
      exact Method.genetic_solves hbase hM h.room hpopulation
    · rw [hmethod]
      exact Method.swarm_solves hbase hM h.room hpopulation (hswarm hsearch)
    · rw [hmethod]
      obtain ⟨c, hsolves, _, hmatrix⟩ := hbase M rfl hM
      exact ⟨c, hsolves, hmatrix⟩

/-! ## Syntheses -/

/-- A fresh reduction solves the matrix, or fails where that is allowed. -/
theorem reduceFresh_yields (h : s.Ready M.rows) (hswarm : s.HoldsSwarm)
    (hroutes : s.Routes G? M.rows) (hM : M.IsInvertible) :
    Reporting.Yields F (s.reduceFresh G? M)
      fun o => o.Solves s.settings.mode M (s.Allowed G? M.rows) := by
  obtain ⟨c, hsolves, hleaves⟩ := method_solves h hswarm hroutes hM
  unfold reduceFresh
  dsimp only
  rw [hsolves.outcome_eq, hsolves.circuit_eq]
  refine Reporting.yields_report_bind (Reporting.yields_lift_bind (by simp) ?_)
  rintro _ ⟨⟩
  exact Reporting.yields_pure ⟨rfl, hsolves.realises, hleaves⟩

/-- The circuit of the transpose, if it is taken. -/
theorem cheaperTranspose?_eq {direct transposed : Outcome} {c : Circuit}
    (h : s.cheaperTranspose? direct transposed = some c) : c = transposed.circuit.transpose := by
  unfold cheaperTranspose? at h
  dsimp only at h
  split at h
  · exact (Option.some.inj h).symm
  · cases h

/-- **A synthesis solves** invertible matrices. -/
theorem run_yields (h : s.Ready M.rows) (hswarm : s.HoldsSwarm) (hM : M.IsInvertible) :
    Reporting.Yields F (s.run M) fun o => ∃ G?, (∀ G ∈ s.graph, G? = some G) ∧
      o.Solves s.settings.mode M (s.Allowed G? M.rows) := by
  obtain ⟨G?, hrouting, hroutes, hgiven⟩ := routingGraph_eq h
  unfold run
  rw [hrouting]
  refine Reporting.yields_lift_bind (by simp) ?_
  rintro _ ⟨⟩
  refine (reduceFresh_yields h hswarm hroutes hM).bind ?_
  intro direct hdirect
  split
  · -- the circuit of the transpose, turned around, is a circuit for the matrix
    have hrows : M.transpose.rows = M.rows := hM.cols_eq
    have hready : s.Ready M.transpose.rows := by rwa [hrows]
    have hroutes' : s.Routes G? M.transpose.rows := by rwa [hrows]
    refine (reduceFresh_yields hready hswarm hroutes' hM.transpose).bind ?_
    intro transposed ht
    rw [hrows] at ht
    split
    · next c hc =>
      have hrealises := (ht.realises.transpose hM.cols_eq).mono fun t u => Routed.symm
      rw [← cheaperTranspose?_eq hc] at hrealises
      exact Reporting.yields_pure ⟨G?, hgiven, { hdirect with realises := hrealises }⟩
    · exact Reporting.yields_pure ⟨G?, hgiven, hdirect⟩
  · exact Reporting.yields_pure ⟨G?, hgiven, hdirect⟩

/-- **Every synthesis of an invertible matrix succeeds**, in every mode and whatever is drawn: the
settings are in range and reduce fully; the graph, if there is one, is connected, and from every
number on if pivots are taken by row number; the matrix and the swarm can be held. The rank is full;
the circuit carries out the matrix as its layout relabels it; what is left is the identity, or for
free vertex elimination the permutation matrix of the output; and where the mode respects couplings,
so does the circuit. -/
theorem run_realises (hcheck : s.settings.check = .ok ()) (hfull : s.settings.fullReduce = true)
    (hswarm : s.settings.mode = .swarmSteiner ∨ s.settings.mode = .swarmGauss →
      s.settings.swarm.swarmSize < addressLimit)
    (hgraph : ∀ G ∈ s.graph, G.size = M.rows ∧ G.isConnected = true ∧
      (s.settings.pivotOrder = .byRow → G.SuffixConnected))
    (hM : M.IsInvertible) (hroom : requireShape M.rows M.cols = .ok ()) (log : List Event) :
    ∃ o events, (s.run M).run.run log = (.ok o, log ++ events) ∧
      o.rank = M.rows ∧
      (∃ N, o.circuit.parityMap = .ok N ∧ (o.circuit.layout = none → N = M) ∧
        ∀ l ∈ o.circuit.layout, M.relabel? l.rowPerm l.colPerm = .ok N) ∧
      (s.settings.mode ≠ .permRowCol → o.matrix = identity M.rows) ∧
      (s.settings.mode = .permRowCol → ∃ perm, o.outputPerm? = some perm ∧
        IsPermutation perm M.rows ∧ o.matrix.rows = M.rows ∧ o.matrix.cols = M.rows ∧
        ∀ r c : ℕ, o.matrix.entry r c = true ↔ perm[c]? = some r) ∧
      (s.settings.mode.respectsCoupling = true → ∀ G ∈ s.graph, G.supports o.circuit = true) := by
  rw [hM.cols_eq] at hroom
  have hready : s.Ready M.rows :=
    ⟨hcheck, hfull, fun G hG => ⟨(hgraph G hG).1, (hgraph G hG).2.1, (hgraph G hG).2.2⟩,
      lt_addressLimit hroom⟩
  obtain ⟨o, events, hrun, G?, hgiven, hsolves⟩ :=
    (run_yields (F := False) hready hswarm hM).run_eq log
  have hleaves := hsolves.leaves
  unfold Mode.Leaves at hleaves
  refine ⟨o, events, hrun, hsolves.rank_eq, ⟨_, hsolves.realises.parityMap_eq hroom, ?_, ?_⟩,
    ?_, ?_, ?_⟩
  · intro hlayout
    rw [hlayout]
    rfl
  · intro l hl
    obtain ⟨hrow, hcol⟩ := hsolves.realises.wellFormed.layout l hl
    rw [hsolves.realises.qubits_eq] at hrow hcol
    have hl : o.circuit.layout = some l := hl
    rw [relabel?_eq hrow (by rwa [hM.cols_eq]), hl]
    rfl
  · intro hmode
    rwa [if_neg hmode] at hleaves
  · intro hmode
    rw [if_pos hmode] at hleaves
    obtain ⟨hrows, output, hones⟩ := hleaves
    exact ⟨output, hones.permutation?_eq, hrows ▸ hones.perm, hrows, hones.square.trans hrows,
      hones.entry_iff⟩
  · intro hcoupled G hG
    have hrealises := hsolves.realises
    rw [Allowed, hcoupled, hgiven G hG] at hrealises
    exact CouplingGraph.supports_of_realises hrealises (hgraph G hG).1

/-- Four qubits around qubit 1, placed by a swarm. -/
theorem run_realises_star :
    let G := CouplingGraph.assemble "star" 4 [1, 0, 2, 3] [(0, 1), (0, 2), (0, 3)] (by decide)
      (by simp [IsCoupling])
    let M := (((identity 4).addRow 0 2).addRow 2 3).addRow 3 0
    let s : Setup :=
      { settings := { Settings.default with mode := .swarmSteiner }, graph := some G }
    s.settings.check = .ok () ∧ G.isConnected = true ∧ M.IsInvertible ∧
      ∃ o events, (s.run M).run.run [] = (.ok o, events) ∧ o.rank = 4 ∧
        o.matrix = identity 4 ∧ G.supports o.circuit = true := by
  intro G M s
  have hcheck : s.settings.check = .ok () := Settings.check_eq_ok (by decide)
  have hG : G.isConnected = true := by decide
  have hM : M.IsInvertible := isInvertible_iff.mpr ⟨by decide, by decide⟩
  have hgraph : ∀ H ∈ s.graph, H.size = M.rows ∧ H.isConnected = true ∧
      (s.settings.pivotOrder = .byRow → H.SuffixConnected) := by
    rintro _ ⟨⟩
    exact ⟨rfl, hG, nofun⟩
  obtain ⟨o, events, hrun, hrank, _, hmatrix, _, hsupports⟩ :=
    run_realises hcheck rfl (fun _ => by decide) hgraph hM (by decide) []
  exact ⟨hcheck, hG, hM, o, events, hrun, hrank, hmatrix nofun, hsupports rfl G rfl⟩

/-! ## Swarms that cannot be held -/

/-- **With more particles than can be held** no synthesis with a swarm succeeds. -/
theorem run_breaks (h : s.Ready M.rows) (hM : M.IsInvertible)
    (hmode : s.settings.mode = .swarmSteiner ∨ s.settings.mode = .swarmGauss)
    (hswarm : addressLimit ≤ s.settings.swarm.swarmSize) (log : List Event) :
    ∃ log', (s.run M).run.run log = (.error (.broken .capacity), log') := by
  obtain ⟨G?, hrouting, hroutes, _⟩ := routingGraph_eq h
  have hfree : s.settings.mode ≠ .permRowCol := by
    rcases hmode with hmode | hmode <;> simp [hmode]
  have hmethod : s.method = .swarm s.settings.baseMethod (s.settings.search s.source) := by
    unfold method Settings.method
    rcases hmode with hmode | hmode <;> rw [hmode]
  have houtcome := Method.swarm_breaks (s := s.settings.search s.source)
    (baseMethod_solves h hroutes hfree) hM h.room (Settings.populationSize_pos h.check) hswarm
    (some (Circuit.empty M.rows))
  rw [← hmethod] at houtcome
  -- the first reduction already fails, so the transpose is not tried
  have hfresh : ∃ log', (s.reduceFresh G? M).run.run log = (.error (.broken .capacity), log') := by
    unfold reduceFresh
    dsimp only
    rw [houtcome]
    exact ⟨_, rfl⟩
  obtain ⟨log', hfresh⟩ := hfresh
  refine ⟨log', ?_⟩
  have hstart : ∀ f : Option CouplingGraph → Reporting Outcome,
      ((liftM (Except.ok G? : Except (Fault SynthesisError) _) : Reporting _) >>= f) = f G? :=
    fun _ => rfl
  unfold run
  rw [hrouting, hstart, Reporting.run_bind, hfresh]

/-- The settings are in range and the matrix has one entry, but the swarm has `2^64 - 1`
particles. -/
theorem run_breaks_largest_swarm :
    let s : Setup :=
      { settings := { Settings.default with
          mode := .swarmGauss
          swarm := { Swarm.Settings.default with swarmSize := 18446744073709551615 } }
        graph := none }
    s.settings.check = .ok () ∧ s.settings.fullReduce = true ∧ (identity 1).IsInvertible ∧
      ∃ log, (s.run (identity 1)).run.run [] = (.error (.broken .capacity), log) := by
  intro s
  have hcheck : s.settings.check = .ok () := Settings.check_eq_ok (by decide)
  have hM := isInvertible_identity 1
  have hready : s.Ready (identity 1).rows := ⟨hcheck, rfl, by simp [s], by decide⟩
  exact ⟨hcheck, rfl, hM, run_breaks hready hM (.inr rfl) (by decide) []⟩

end Setup

end Synthesis

end CnotSynthesis
