import CnotSynthesis.Proofs.Circuit.Layering
import CnotSynthesis.Proofs.Elimination.CleanColumns
import CnotSynthesis.Proofs.Synthesis.Runs

/-! # The trial of the transpose

A circuit for the transpose, turned around, is a circuit for the matrix: it uses the same couplings
and costs the same. So the cheaper of the two circuits can be kept.

* **`Setup.keepCheaper_cases`**, **`Setup.score_keepCheaper`** — which circuit is kept, and its
  cost.
* **`Setup.trial_keeps_cheaper`** — a synthesis with the trial: the circuit is one for the matrix,
  on the couplings, and costs the minimum of what the two eliminations cost.
* **`Setup.trying_ok_iff`** — the elimination of the transpose is carried out in full, so the trial
  is harmless exactly if that elimination goes through.
* **`Setup.trial_safe_iff`** — for which setups that is so for every matrix. -/

namespace CnotSynthesis

namespace Synthesis

open ParityMatrix Chain

namespace Setup

variable {s : Setup} {G? : Option CouplingGraph} {M : ParityMatrix} {o direct transposed : Outcome}
  {log log' : List Event}

/-! ## The circuit that is kept -/

/-- The circuit of the matrix, or that of the transpose turned around. -/
theorem keepCheaper_cases (s : Setup) (direct transposed : Outcome) :
    s.keepCheaper direct transposed = direct ∨ transposed.matrix.isIdentity = true ∧
      s.keepCheaper direct transposed =
        { direct with circuit := transposed.circuit.transpose } := by
  unfold keepCheaper cheaperTranspose?
  dsimp only
  by_cases h : (transposed.matrix.isIdentity && decide (s.settings.metric.score
      transposed.circuit.transpose < s.settings.metric.score direct.circuit)) = true
  · rw [if_pos h]
    exact .inr ⟨(Bool.and_eq_true_iff.mp h).1, rfl⟩
  · rw [if_neg h]
    exact .inl rfl

/-- Without a circuit for the transpose nothing is compared. -/
theorem keepCheaper_of_not_isIdentity (h : transposed.matrix.isIdentity = false) :
    s.keepCheaper direct transposed = direct := by
  rcases s.keepCheaper_cases direct transposed with hkept | ⟨hidentity, _⟩
  · exact hkept
  · rw [h] at hidentity
    cases hidentity

/-- **The cost of the circuit that is kept.** -/
theorem score_keepCheaper (h : transposed.matrix.isIdentity = true) :
    s.settings.metric.score (s.keepCheaper direct transposed).circuit =
      min (s.settings.metric.score direct.circuit)
        (s.settings.metric.score transposed.circuit) := by
  unfold keepCheaper cheaperTranspose?
  dsimp only
  rw [h, Bool.true_and, Metric.score_transpose]
  by_cases hlt : s.settings.metric.score transposed.circuit < s.settings.metric.score direct.circuit
  · rw [if_pos (decide_eq_true hlt), min_eq_right hlt.le]
    exact Metric.score_transpose _ _
  · rw [if_neg (by simpa using hlt), min_eq_left (Nat.le_of_not_lt hlt)]

/-- It costs no more than that of the matrix. -/
theorem score_keepCheaper_le (s : Setup) (direct transposed : Outcome) :
    s.settings.metric.score (s.keepCheaper direct transposed).circuit ≤
      s.settings.metric.score direct.circuit := by
  cases h : transposed.matrix.isIdentity with
  | true =>
    rw [score_keepCheaper h]
    exact min_le_left _ _
  | false => rw [keepCheaper_of_not_isIdentity h]

/-! ## Syntheses with the trial -/

/-- With full reduction the transpose is tried if that is asked for. -/
theorem triesTranspose_eq (hmode : s.ReducesRows) (hfull : s.settings.fullReduce = true) :
    s.settings.triesTranspose = s.settings.tryTranspose := by
  unfold Settings.triesTranspose
  rw [hfull]
  rcases hmode with hmode | hmode <;> simp [hmode]

/-- An identity that was produced is what the elimination left. -/
theorem Produces.eq_identity (h : s.Produces G? M o) (hmode : s.ReducesRows)
    (hidentity : o.matrix.isIdentity = true) : (s.elimination G? M).matrix = identity M.rows := by
  have hrows := (h.factors hmode).rows_eq
  rw [h.matrix_eq] at hrows ⊢
  rw [← hrows]
  exact isIdentity_iff.mp hidentity

/-- An elimination that leaves the identity leaves a circuit for the matrix. -/
theorem Produces.realises (h : s.Produces G? M o) (hmode : s.ReducesRows)
    (hidentity : o.matrix.isIdentity = true) :
    o.circuit.Realises M (s.Allowed G? M.rows) ∧ o.circuit.layout = none :=
  ⟨(h.factors hmode).realises (h.eq_identity hmode hidentity), (h.factors hmode).layout_eq⟩

/-- Only invertible matrices are reduced to the identity. -/
theorem Produces.isInvertible (h : s.Produces G? M o) (hmode : s.ReducesRows)
    (hidentity : o.matrix.isIdentity = true) : M.IsInvertible :=
  (h.factors hmode).isInvertible (h.eq_identity hmode hidentity)

/-- **Either circuit is one for the matrix**, if both are circuits at all. -/
theorem keepCheaper_realises (hmode : s.ReducesRows) (hdirect : s.Produces G? M direct)
    (hidentity : direct.matrix.isIdentity = true)
    (htransposed : s.Produces G? M.transpose transposed) :
    (s.keepCheaper direct transposed).circuit.Realises M (s.Allowed G? M.rows) ∧
      (s.keepCheaper direct transposed).circuit.layout = none := by
  have hsquare : M.cols = M.rows := (hdirect.isInvertible hmode hidentity).cols_eq
  rcases s.keepCheaper_cases direct transposed with hkept | ⟨hidentity', hkept⟩
  · rw [hkept]
    exact hdirect.realises hmode hidentity
  · obtain ⟨hrealises, hlayout⟩ := htransposed.realises hmode hidentity'
    have hrows : M.transpose.rows = M.rows := hsquare
    rw [hrows] at hrealises
    rw [hkept]
    refine ⟨(hrealises.transpose hsquare).mono fun t u => Routed.symm, ?_⟩
    change transposed.circuit.layout.map _ = none
    rw [hlayout]
    rfl

/-- A circuit that the mode allows is one on the couplings of the given graph. -/
theorem supports_of_realises (hrouting : s.routingGraph M.rows = .ok G?)
    (hcoupled : s.settings.mode.respectsCoupling = true) {c : Circuit}
    (h : c.Realises M (s.Allowed G? M.rows)) {G : CouplingGraph} (hG : G ∈ s.graph) :
    G.supports c = true := by
  obtain ⟨hgiven, hsize⟩ := routingGraph_given hrouting hG
  rw [Allowed, hcoupled, hgiven] at h
  exact CouplingGraph.supports_of_realises h hsize

/-- **A synthesis with the trial of the transpose** that reduces its matrix to the identity: the
circuit is one for the matrix, on the couplings where the mode respects them. Its cost is that of
the elimination of the matrix, or, if the transpose is reduced to the identity as well, the minimum
of the costs of both eliminations; for a circuit turned around has as many gates and layers and
costs the same. -/
theorem trial_keeps_cheaper
    (hmode : s.settings.mode = .gauss ∨ s.settings.mode = .steiner)
    (hfull : s.settings.fullReduce = true) (htry : s.settings.tryTranspose = true)
    (hrun : (s.run M).run.run log = (.ok o, log')) (hidentity : o.matrix.isIdentity = true) :
    let score := s.settings.metric.score
    o.circuit.parity = M ∧
      (requireShape M.rows M.cols = .ok () → o.circuit.parityMap = .ok M) ∧
      (s.settings.mode = .steiner → ∀ G ∈ s.graph, G.supports o.circuit = true) ∧
      (∃ G? c d, s.routingGraph M.rows = .ok G? ∧
        (s.elimination G? M).circuit = some c ∧
        (s.elimination G? M.transpose).circuit = some d ∧
        ((s.elimination G? M.transpose).matrix.isIdentity = false → score o.circuit = score c) ∧
        ((s.elimination G? M.transpose).matrix.isIdentity = true →
          score o.circuit = min (score c) (score d))) ∧
      ∀ e : Circuit, e.transpose.count = e.count ∧ e.transpose.depth = e.depth ∧
        ∀ m : Metric, m.score e.transpose = m.score e := by
  intro score
  have htries := (triesTranspose_eq hmode hfull).trans htry
  obtain ⟨G?, direct, hrouting, hdirect, hkept⟩ := (run_eq_ok_iff log).mp ⟨log', hrun⟩
  rw [htries, Bool.true_and] at hkept
  split at hkept
  · next hdirectIdentity =>
    obtain ⟨transposed, htransposed, rfl⟩ := hkept
    obtain ⟨hrealises, hlayout⟩ :=
      keepCheaper_realises hmode hdirect hdirectIdentity htransposed
    have hsquare := (hdirect.isInvertible hmode hdirectIdentity).cols_eq
    refine ⟨?_, fun hroom => ?_, fun hsteiner G hG => ?_, ⟨G?, direct.circuit, transposed.circuit,
      hrouting, (hdirect.factors hmode).circuit_eq, (htransposed.factors hmode).circuit_eq,
      fun h => ?_, fun h => ?_⟩, fun e => ⟨e.count_transpose, e.depth_transpose,
        fun m => m.score_transpose e⟩⟩
    · have hparity := hrealises.parity_eq
      rwa [hlayout] at hparity
    · rw [hsquare] at hroom
      rw [hrealises.parityMap_eq hroom, hlayout]
      rfl
    · exact supports_of_realises hrouting (by rw [hsteiner]; rfl) hrealises hG
    · rw [htransposed.matrix_eq] at h
      rw [keepCheaper_of_not_isIdentity h]
    · rw [htransposed.matrix_eq] at h
      exact score_keepCheaper h
  · next hnot => exact absurd (hkept ▸ hidentity) hnot

/-- Three qubits in a line, and a matrix whose transpose takes fewer gates. -/
theorem trial_keeps_cheaper_line :
    let G := CouplingGraph.line 3
    let M := ParityMatrix.ofFn 3 3 fun r c => r == 2 || r + c == 2
    let s : Setup :=
      { settings := { Settings.default with metric := .count, tryTranspose := true }
        graph := some G }
    s.settings.check = .ok () ∧
      ∃ o log, (s.run M).run.run [] = (.ok o, log) ∧ o.matrix.isIdentity = true ∧
        o.circuit.parity = M ∧ G.supports o.circuit = true ∧
        (s.elimination (some G) M).circuit.map Circuit.count = some 9 ∧ o.circuit.count = 6 := by
  intro G M s
  have hcheck : s.settings.check = .ok () := Settings.check_eq_ok (by decide)
  have hM : M.IsInvertible := isInvertible_iff.mpr ⟨by decide, by decide⟩
  have hready : s.Ready M.rows := ⟨hcheck, rfl, fun H hH => by
    obtain rfl : G = H := Option.some.inj hH
    exact CouplingGraph.suits_byGraph rfl (by decide), by decide⟩
  obtain ⟨o, log, hrun, _, _, hsolves⟩ := (run_yields (F := False) hready nofun hM).run_eq []
  have hidentity : o.matrix.isIdentity = true := by
    have hleaves : o.matrix = identity 3 := hsolves.leaves
    rw [hleaves]
    rfl
  obtain ⟨hparity, _, hsupports, ⟨G?, c, d, hrouting, hc, hd, _, hmin⟩, _⟩ :=
    trial_keeps_cheaper (.inr rfl) rfl rfl hrun hidentity
  obtain ⟨rfl, _⟩ := routingGraph_given hrouting (G := G) rfl
  have hcount : (s.elimination (some G) M).circuit.map Circuit.count = some 9 := by decide +kernel
  have hcount' : (s.elimination (some G) M.transpose).circuit.map Circuit.count = some 6 := by
    decide +kernel
  refine ⟨hcheck, o, log, hrun, hidentity, hparity, hsupports rfl G rfl, hcount, ?_⟩
  rw [hc] at hcount
  rw [hd] at hcount'
  have hmin : o.circuit.count = min c.count d.count := hmin (by decide +kernel)
  rw [hmin, Option.some.inj hcount, Option.some.inj hcount']
  rfl

/-! ## When the trial is harmless -/

/-- The same setup, with or without the trial. -/
def trying (s : Setup) (b : Bool) : Setup :=
  { s with settings := { s.settings with tryTranspose := b } }

/-- The trial is no part of an elimination. -/
theorem produces_trying_iff (b : Bool) : (s.trying b).Produces G? M o ↔ s.Produces G? M o :=
  ⟨fun h => ⟨h.outcome_eq, h.circuit_eq, h.matrix_eq⟩,
    fun h => ⟨h.outcome_eq, h.circuit_eq, h.matrix_eq⟩⟩

/-- **The trial is harmless for a matrix exactly if the elimination of its transpose goes through**,
or is not attempted because the matrix is not reduced to the identity. -/
theorem trying_ok_iff (hmode : s.ReducesRows) (hfull : s.settings.fullReduce = true)
    (hrouting : s.routingGraph M.rows = .ok G?) (hproduces : s.Produces G? M o)
    (log : List Event) :
    (∃ o' log', ((s.trying true).run M).run.run log = (.ok o', log') ∧
      s.settings.metric.score o'.circuit ≤ s.settings.metric.score o.circuit) ↔
      (o.matrix.isIdentity = true → ∃ k, (s.elimination G? M.transpose).outcome = .ok k) := by
  have htries : (s.trying true).settings.triesTranspose = true := by
    exact triesTranspose_eq (s := s.trying true) hmode hfull
  constructor
  · rintro ⟨o', log', hrun, _⟩ hidentity
    obtain ⟨H?, direct, hrouting', hdirect, hkept⟩ := (run_eq_ok_iff log).mp ⟨log', hrun⟩
    obtain rfl : G? = H? := Except.ok.inj (hrouting.symm.trans hrouting')
    obtain rfl : o = direct := hproduces.unique ((produces_trying_iff true).mp hdirect)
    rw [htries, hidentity] at hkept
    obtain ⟨transposed, htransposed, _⟩ := hkept
    exact ⟨_, htransposed.outcome_eq⟩
  · intro hgoes
    have hdirect := (produces_trying_iff true).mpr hproduces
    cases hidentity : o.matrix.isIdentity with
    | false =>
      obtain ⟨log', hrun⟩ := (run_eq_ok_iff (s := s.trying true) (o := o) log).mpr
        ⟨G?, o, hrouting, hdirect, by rw [htries, hidentity]; rfl⟩
      exact ⟨o, log', hrun, le_rfl⟩
    | true =>
      obtain ⟨k, hk⟩ := hgoes hidentity
      obtain ⟨transposed, htransposed⟩ := exists_produces hk
      obtain ⟨log', hrun⟩ := (run_eq_ok_iff (s := s.trying true)
        (o := (s.trying true).keepCheaper o transposed) log).mpr
        ⟨G?, o, hrouting, hdirect, by
          rw [htries, hidentity]
          exact ⟨transposed, (produces_trying_iff true).mpr htransposed, rfl⟩⟩
      exact ⟨_, log', hrun, score_keepCheaper_le (s.trying true) o transposed⟩

/-- Where no elimination gets stuck, every invertible matrix is reduced. -/
theorem elimination_exists_ok (hmode : s.ReducesRows) (hfull : s.settings.fullReduce = true)
    (hgraph : ∀ G ∈ s.graph, G.isConnected = true)
    (hsuffix : s.settings.mode = .gauss ∨ s.settings.pivotOrder = .byGraph ∨
      ∀ G ∈ s.graph, G.SuffixConnected)
    (hrouting : s.routingGraph M.rows = .ok G?) (hM : M.IsInvertible) :
    ∃ k, (s.elimination G? M).outcome = .ok k := by
  rcases hmode with hgauss | hsteiner
  · obtain ⟨c, hsolves, _⟩ := Method.solves_gauss G? M.rows M rfl hM
    rw [elimination_gauss hgauss, hfull]
    exact ⟨_, hsolves.outcome_eq⟩
  · obtain ⟨G, rfl, hsize, hconnected, horigin⟩ :=
      routingGraph_connected hrouting (by rw [hsteiner]; rfl) hgraph
    have hsuits : G.Suits s.settings.pivotOrder M.rows := by
      rcases horigin with hG | ⟨_, rfl⟩
      · refine ⟨hsize, hconnected, fun hbyRow => ?_⟩
        rcases hsuffix with hgauss | hbyGraph | hsuffix
        · rw [hsteiner] at hgauss
          cases hgauss
        · rw [hbyRow] at hbyGraph
          cases hbyGraph
        · exact hsuffix G hG
      · exact CouplingGraph.suits_complete _ _
    obtain ⟨k, hk⟩ := Method.steiner_plan_exists_ok hsuits hM
    refine ⟨k, ((elimination_steiner hsteiner hsize).1 k).mpr ?_⟩
    rw [hfull]
    exact hk

/-- **The trial of the transpose is harmless for every matrix** — a synthesis that succeeds without
it succeeds with it, at no higher cost — exactly if no elimination can get stuck: pivots are not
taken by row number along couplings, or the qubits from any number on are connected. -/
theorem trial_safe_iff
    (hmode : s.settings.mode = .gauss ∨ s.settings.mode = .steiner)
    (hfull : s.settings.fullReduce = true) (hgraph : ∀ G ∈ s.graph, G.isConnected = true) :
    (∀ M o log log', ((s.trying false).run M).run.run log = (.ok o, log') →
      ∃ o' log'', ((s.trying true).run M).run.run log = (.ok o', log'') ∧
        s.settings.metric.score o'.circuit ≤ s.settings.metric.score o.circuit) ↔
      (s.settings.mode = .gauss ∨ s.settings.pivotOrder = .byGraph ∨
        ∀ G ∈ s.graph, G.SuffixConnected) := by
  constructor
  · intro hsafe
    by_contra hstuck
    push Not at hstuck
    obtain ⟨hgauss, horder, G, hG, hsuffix⟩ := hstuck
    have hsteiner := hmode.resolve_left hgauss
    have hbyRow : s.settings.pivotOrder = .byRow := by
      cases h : s.settings.pivotOrder with
      | byRow => rfl
      | byGraph => exact absurd h horder
    -- a matrix that is reduced, while its transpose is not
    obtain ⟨M, hrows, hM, ⟨k, hk⟩, hstuck⟩ :=
      Reduction.exists_stuck_transpose (hgraph G hG) hsuffix
    have hrouting := routingGraph_of_given hG hrows.symm
    have hplan := elimination_steiner (s := s) (M := M) hsteiner hrows.symm
    rw [hfull, hbyRow] at hplan
    obtain ⟨o, ho⟩ := exists_produces ((hplan.1 k).mpr hk)
    obtain ⟨log', hrun⟩ := (run_eq_ok_iff_of_not_tries (s := s.trying false) rfl []).mpr
      ⟨_, hrouting, (produces_trying_iff false).mpr ho⟩
    have hidentity : o.matrix.isIdentity = true := by
      rw [← ho.matrix_eq, hplan.2, (Method.steiner_plan_of_ok (hgraph G hG) hrows.symm hM hk).2]
      exact isIdentity_iff.mpr rfl
    obtain ⟨k', hk'⟩ :=
      (trying_ok_iff hmode hfull hrouting ho []).mp (hsafe M o [] log' hrun) hidentity
    have hcols : G.size = M.transpose.rows := hrows.symm.trans hM.cols_eq.symm
    have hplan' := ((elimination_steiner hsteiner hcols).1 k').mp hk'
    rw [hfull, hbyRow] at hplan'
    exact hstuck k' hplan'
  · intro hsuffix M o log log' hrun
    obtain ⟨G?, hrouting, ho⟩ :=
      (run_eq_ok_iff_of_not_tries (s := s.trying false) rfl log).mp ⟨log', hrun⟩
    have hrouting : s.routingGraph M.rows = .ok G? := hrouting
    have ho := (produces_trying_iff false).mp ho
    refine (trying_ok_iff hmode hfull hrouting ho log).mpr fun hidentity => ?_
    have hM := ho.isInvertible hmode hidentity
    have hrouting' : s.routingGraph M.transpose.rows = .ok G? := by
      rw [← hrouting]
      exact congrArg _ hM.cols_eq
    exact elimination_exists_ok hmode hfull hgraph hsuffix hrouting' hM.transpose

/-- Two qubits coupled with qubit 0 only, pivots in the order of the graph. -/
theorem trial_safe_star :
    let G := CouplingGraph.assemble "star" 3 [0, 1, 2] [(0, 1), (0, 2)] (by decide)
      (by simp [IsCoupling])
    let s : Setup := { settings := Settings.default, graph := some G }
    G.isConnected = true ∧
      ∀ M o log log', ((s.trying false).run M).run.run log = (.ok o, log') →
        ∃ o' log'', ((s.trying true).run M).run.run log = (.ok o', log'') ∧
          s.settings.metric.score o'.circuit ≤ s.settings.metric.score o.circuit := by
  intro G s
  have hG : G.isConnected = true := by decide
  refine ⟨hG, (trial_safe_iff (.inr rfl) rfl ?_).mpr (.inr (.inl rfl))⟩
  rintro _ ⟨⟩
  exact hG

/-- The same qubits, pivots by row number: without the trial there is a circuit, with it there is an
error. -/
theorem trial_loses_circuit_star :
    let G := CouplingGraph.assemble "star" 3 [0, 1, 2] [(0, 1), (0, 2)] (by decide)
      (by simp [IsCoupling])
    let M := (identity 3).addRow 1 2
    let s : Setup := { settings := { Settings.default with pivotOrder := .byRow }, graph := some G }
    s.settings.check = .ok () ∧ s.settings.fullReduce = true ∧ G.isConnected = true ∧
      (∃ o log, ((s.trying false).run M).run.run [] = (.ok o, log)) ∧
      ∀ o log, ((s.trying true).run M).run.run [] ≠ (.ok o, log) := by
  intro G M s
  refine ⟨Settings.check_eq_ok (by decide), rfl, by decide, ?_, ?_⟩
  · have hok : (((s.trying false).run M).run.run []).1.toOption.isSome = true := by decide +kernel
    rcases hrun : ((s.trying false).run M).run.run [] with ⟨_ | o, log⟩
    · rw [hrun] at hok
      cases hok
    · exact ⟨o, log, rfl⟩
  · intro o log hrun
    have herror : (((s.trying true).run M).run.run []).1.toOption.isSome = false := by
      decide +kernel
    rw [hrun] at herror
    cases herror

end Setup

end Synthesis

end CnotSynthesis
