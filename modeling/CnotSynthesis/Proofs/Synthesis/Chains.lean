import CnotSynthesis.Proofs.Placement.ReducedChains
import CnotSynthesis.Proofs.Synthesis.Runs

/-! # Chains that succeed

A chain has neither ranks nor the matrices that were left, so nothing in it shows whether its
circuits are circuits for its matrices.

* **`ParityMatrix.isInvertible_relabel_iff`** — placements do not matter for invertibility.
* **`Reduction.rowCol_isInvertible`** — tied vertex elimination refuses singular matrices.
* **`Setup.baseMethod_eq_identity`** — an elimination that goes through leaves the identity of an
  invertible matrix, if it is to.
* **`Setup.element_parity_iff`** — one element of a chain.
* **`Setup.runChain_parity_iff`** — every circuit of a chain: it is one for its matrix exactly if
  the identity was left of that. -/

namespace CnotSynthesis

open ParityMatrix

/-- **Placed or not**, a matrix is invertible. -/
theorem ParityMatrix.isInvertible_relabel_iff {M : ParityMatrix} {p q : List ℕ}
    (hsquare : M.cols = M.rows) (hp : IsPermutation p M.rows) (hq : IsPermutation q M.rows) :
    (M.relabel p q).IsInvertible ↔ M.IsInvertible := by
  refine ⟨fun h => ?_, fun h => h.relabel hp hq⟩
  have hback := h.relabel (p := Permutation.inverse p) (q := Permutation.inverse q) hp.inverse
    hq.inverse
  have hrange := M.relabel_range
  rw [hsquare] at hrange
  rwa [relabel_relabel hp.inverse (by rw [hsquare]; exact hq.inverse), hp.compose_inverse,
    hq.compose_inverse, hrange] at hback

namespace Reduction

/-- Tied vertex elimination refuses what is not invertible. -/
theorem rowCol_isInvertible (G? : Option CouplingGraph) (w : Work) :
    Yields True (rowCol G?) w fun _ _ => w.matrix.IsInvertible := by
  have hrequire : Yields True requireInvertible w fun _ _ => w.matrix.IsInvertible := by
    refine yields_matrix_bind ?_
    split
    · trivial
    · next hsquare =>
      split
      · trivial
      · next hrank =>
        have hsquare : w.matrix.isSquare = true := by simpa using hsquare
        have hle : w.matrix.rank ≤ w.matrix.rows := by
          rw [rank_eq_rank_toMatrix]
          exact Matrix.rank_le_height _
        exact yields_pure (isInvertible_iff.mpr ⟨(beq_iff_eq.mp hsquare).symm, by omega⟩)
  exact hrequire.bind fun _ _ h => yields_of_forall fun _ _ => h

end Reduction

namespace Synthesis

open Chain

namespace Setup

variable {s : Setup} {n : ℕ} {G? : Option CouplingGraph} {M : ParityMatrix}

/-- The base of tied vertex elimination. -/
theorem baseMethod_rowCol (hmode : s.settings.mode = .rowCol) :
    s.settings.baseMethod = .rowCol := by
  unfold Settings.baseMethod
  rw [hmode]

/-- **An elimination that goes through** leaves the identity of an invertible matrix, on a connected
graph or none, if it goes up as well as down. -/
theorem baseMethod_eq_identity (hmode : s.settings.mode ≠ .permRowCol)
    (hfull : s.settings.fullReduce = true ∨ s.settings.mode = .rowCol)
    (hgraph : ∀ G ∈ s.graph, G.isConnected = true) (hrouting : s.routingGraph M.rows = .ok G?)
    (hM : M.IsInvertible) {k : ℕ}
    (hk : (s.settings.baseMethod.reduce G? M (some (Circuit.empty M.rows))).outcome = .ok k) :
    (s.settings.baseMethod.reduce G? M (some (Circuit.empty M.rows))).matrix =
      identity M.rows := by
  have hup : s.settings.baseMethod ≠ .rowCol → s.settings.fullReduce = true :=
    fun hne => hfull.resolve_right fun h => hne (baseMethod_rowCol h)
  rcases s.settings.baseMethod_cases with ⟨hfree, hbase⟩ | ⟨hcoupled, hbase⟩ | ⟨hmode', hbase⟩ |
    ⟨hperm, _⟩
  · rw [hbase, hup (by rw [hbase]; nofun)]
    obtain ⟨_, _, _, hidentity⟩ := Method.solves_gauss G? M.rows M rfl hM
    exact hidentity
  · obtain ⟨G, rfl, hsize, hG, _⟩ := routingGraph_connected hrouting hcoupled hgraph
    rw [hbase, hup (by rw [hbase]; nofun)] at hk ⊢
    have hgraphFor : graphFor (some G) M.rows = .ok G := if_pos hsize
    have hplan := hk
    rw [Method.reduce_steiner] at hplan
    replace hplan := (Plan.eq_of_record_ok hplan).1
    rw [Method.plan_steinerReduction true _ hsize] at hplan
    obtain ⟨_, _, _, hidentity⟩ := Method.steiner_solves_of_ok hgraphFor hsize hG hM hplan
    exact hidentity
  · obtain ⟨G, rfl, hsize, hG, _⟩ :=
      routingGraph_connected hrouting (by rw [hmode']; rfl) hgraph
    have hsuits : ∀ H ∈ some G, H.Suits .byGraph M.rows := by
      rintro _ ⟨⟩
      exact CouplingGraph.suits_byGraph hsize hG
    rw [hbase]
    obtain ⟨_, _, _, hidentity⟩ := Method.solves_rowCol hsuits M rfl hM
    exact hidentity
  · exact absurd hperm hmode

/-- **One element of a chain**: its circuit is one for its matrix exactly if the identity was left,
and for eliminations that are to leave it, exactly if the matrix is invertible. -/
theorem element_parity_iff (hmode : s.settings.mode ≠ .permRowCol)
    (hrouting : s.routingGraph M.rows = .ok G?) {reports : Bool} {search : SearchSettings}
    {p q : List ℕ} {c : Circuit}
    (h : Engine.Reduces ⟨s.settings.baseMethod.reduce, reports, G?, search⟩ M.rows M p q c) :
    c.WellFormed ∧ c.qubits = M.rows ∧ c.layout = some ⟨q, p⟩ ∧
      (c.parity = M.relabel q p ↔ (s.settings.baseMethod.reduce G? (M.relabel q p)
        (some (Circuit.empty M.rows))).matrix = identity M.rows) ∧
      (s.settings.fullReduce = true ∨ s.settings.mode = .rowCol →
        (∀ G ∈ s.graph, G.isConnected = true) → (c.parity = M.relabel q p ↔ M.IsInvertible)) ∧
      (s.settings.mode = .rowCol → M.IsInvertible) := by
  obtain ⟨k, hk⟩ := h.outcome_ok
  obtain ⟨d, hfactors⟩ := baseMethod_factors (M := M.relabel q p) hmode hk
  have hcircuit : c = { d with layout := some ⟨q, p⟩ } := by
    refine h.circuit_eq.trans ?_
    have hd : (s.settings.baseMethod.reduce G? (M.relabel q p)
      (some (Circuit.empty M.rows))).circuit = some d := hfactors.circuit_eq
    dsimp only
    rw [hd]
    rfl
  have hinvertible := isInvertible_relabel_iff h.cols_eq h.outputPerm h.inputPerm
  have hparity : c.parity = M.relabel q p ↔ (s.settings.baseMethod.reduce G? (M.relabel q p)
      (some (Circuit.empty M.rows))).matrix = identity M.rows := by
    rw [hcircuit]
    exact hfactors.parity_eq_iff
  have hqubits : d.qubits = M.rows := hfactors.qubits_eq
  refine ⟨?_, ?_, ?_, hparity, ?_, ?_⟩
  · rw [hcircuit]
    refine ⟨hfactors.wellFormed.gates, ?_⟩
    rintro _ ⟨⟩
    exact ⟨hqubits.symm ▸ h.outputPerm, hqubits.symm ▸ h.inputPerm⟩
  · rw [hcircuit]
    exact hqubits
  · rw [hcircuit]
  · intro hfull hgraph
    refine hparity.trans ⟨fun hidentity => ?_, fun hM => ?_⟩
    · exact hinvertible.mp (hfactors.isInvertible hidentity)
    · exact baseMethod_eq_identity (M := M.relabel q p) hmode hfull hgraph hrouting
        (hinvertible.mpr hM) hk
  · intro hrowCol
    have hk : (Method.rowCol.reduce G? (M.relabel q p)
        (some (Circuit.empty M.rows))).outcome = .ok k := baseMethod_rowCol hrowCol ▸ hk
    rw [Method.reduce_rowCol] at hk
    exact hinvertible.mp
      ((Reduction.rowCol_isInvertible G? (Work.start (M.relabel q p))).of_ok
        (Plan.eq_of_record_ok hk).1)

/-- **Chains of any matrices**, singular ones too, on any graph, in every mode that can be chained.
If a chain is returned it has a circuit for each matrix and one placement more, and each circuit has
the placements on its two sides as its layout. But its map is the matrix so placed exactly if the
elimination left the identity, which nothing checks; with full reduction on a connected graph or
none that is exactly if the matrix is invertible. Tied vertex elimination alone refuses the
others. -/
theorem runChain_parity_iff {Ms : List ParityMatrix} {inputFree outputFree : Bool} {r : Solution}
    {log : List Event} (hrun : (s.runChain Ms inputFree outputFree).run.run [] = (.ok r, log)) :
    r.circuits.length = Ms.length ∧ (Ms ≠ [] → r.placements.length = Ms.length + 1) ∧
      ∀ (i : ℕ) (M : ParityMatrix), Ms[i]? = some M →
        ∃ (G? : Option CouplingGraph) (c : Circuit) (p q : List ℕ) (N : ParityMatrix),
          s.routingGraph M.rows = .ok G? ∧ r.circuits[i]? = some c ∧ r.placements[i]? = some p ∧
          r.placements[i + 1]? = some q ∧ M.relabel? q p = .ok N ∧ c.layout = some ⟨q, p⟩ ∧
          (requireShape M.rows M.cols = .ok () → c.parityMap = .ok c.parity) ∧
          (c.parity = N ↔
            (s.settings.baseMethod.reduce G? N (some (Circuit.empty N.rows))).matrix =
              identity N.rows) ∧
          (s.settings.fullReduce = true ∨ s.settings.mode = .rowCol →
            (∀ G ∈ s.graph, G.isConnected = true) → (c.parity = N ↔ M.IsInvertible)) ∧
          (s.settings.mode = .rowCol → M.IsInvertible) := by
  unfold runChain at hrun
  cases hstrategy : chainStrategy? s.settings.mode with
  | none =>
    rw [hstrategy] at hrun
    cases hrun
  | some strategy =>
    have hmode : s.settings.mode ≠ .permRowCol := by
      intro hperm
      rw [hperm] at hstrategy
      cases hstrategy
    rw [hstrategy] at hrun
    cases Ms with
    | nil =>
      cases hrun
      exact ⟨rfl, fun h => absurd rfl h, by simp⟩
    | cons M₀ rest =>
      obtain ⟨G?, hrouting, log', hrun⟩ := Reporting.lift_bind_eq_ok_iff.mp ⟨log, hrun⟩
      have hjoins := Engine.synthesize_joins hrun
      refine ⟨hjoins.lengths.1, fun _ => hjoins.lengths.2, ?_⟩
      intro i M hM
      obtain ⟨c, p, q, hc, hp, hq, hreduces⟩ := hjoins.element hM
      have hrows : M₀.rows = M.rows := hreduces.rows_eq.symm
      rw [hrows] at hrouting hreduces
      have hrelabel : M.relabel? q p = .ok (M.relabel q p) :=
        relabel?_eq hreduces.outputPerm (by rw [hreduces.cols_eq]; exact hreduces.inputPerm)
      obtain ⟨hwell, hqubits, hlayout, hparity, hinvertible, hrowCol⟩ :=
        element_parity_iff hmode hrouting hreduces
      refine ⟨G?, c, p, q, _, hrouting, hc, hp, hq, hrelabel, hlayout, fun hroom => ?_, hparity,
        hinvertible, hrowCol⟩
      rw [hreduces.cols_eq] at hroom
      rw [hwell.parityMap_eq, hqubits, hroom]
      rfl

/-- Two coupled qubits, an invertible matrix and a singular one: the first circuit is right and the
second one is not. -/
theorem runChain_parity_line :
    let M := (identity 2).addRow 0 1
    let K := ParityMatrix.ofFn 2 2 fun _ _ => true
    let s : Setup := { settings := Settings.default, graph := some (CouplingGraph.line 2) }
    s.settings.check = .ok () ∧
      ∃ r log, (s.runChain [M, K] false false).run.run [] = (.ok r, log) ∧
        (∃ (c : Circuit) (p q : List ℕ) (N : ParityMatrix), r.circuits[0]? = some c ∧
          r.placements[0]? = some p ∧ r.placements[1]? = some q ∧ M.relabel? q p = .ok N ∧
          c.parityMap = .ok N) ∧
        ∃ (c : Circuit) (p q : List ℕ) (N : ParityMatrix), r.circuits[1]? = some c ∧
          r.placements[1]? = some p ∧ r.placements[2]? = some q ∧ K.relabel? q p = .ok N ∧
          c.parityMap = .ok c.parity ∧ c.parity ≠ N := by
  intro M K s
  refine ⟨Settings.check_eq_ok (by decide), ?_⟩
  have hgraph : ∀ G ∈ s.graph, G.isConnected = true := by
    rintro _ ⟨⟩
    decide
  have hM : M.IsInvertible := isInvertible_iff.mpr ⟨by decide, by decide⟩
  have hK : ¬ K.IsInvertible := fun h => absurd (isInvertible_iff.mp h).2 (by decide)
  have hok : ((s.runChain [M, K] false false).run.run []).1.toOption.isSome = true := by
    decide +kernel
  rcases hrun : (s.runChain [M, K] false false).run.run [] with ⟨_ | r, log⟩
  · rw [hrun] at hok
    cases hok
  · obtain ⟨_, _, hall⟩ := runChain_parity_iff hrun
    obtain ⟨_, c, p, q, N, _, hc, hp, hq, hN, _, hmap, _, hparity, _⟩ := hall 0 M rfl
    obtain ⟨_, d, p', q', N', _, hd, hp', hq', hN', _, hmap', _, hparity', _⟩ := hall 1 K rfl
    refine ⟨r, log, rfl, ⟨c, p, q, N, hc, hp, hq, hN, ?_⟩,
      d, p', q', N', hd, hp', hq', hN', hmap' (by decide), ?_⟩
    · rw [hmap (by decide), (hparity (.inl rfl) hgraph).mpr hM]
    · exact fun h => hK ((hparity' (.inl rfl) hgraph).mp h)

/-- Eliminating downwards only, the settings are in range and a chain is returned; but it has no
gate, and the matrix is not the identity. -/
theorem runChain_wrong_gauss :
    let M := (identity 2).addRow 0 1
    let s : Setup :=
      { settings := { Settings.default with mode := .gauss, fullReduce := false }, graph := none }
    s.settings.check = .ok () ∧
      ∃ r log, (s.runChain [M] false false).run.run [] = (.ok r, log) ∧
        r.placements = [[0, 1], [0, 1]] ∧ M.relabel? [0, 1] [0, 1] = .ok M ∧
        r.circuits.map (·.parityMap.toOption) = [some (identity 2)] ∧ M ≠ identity 2 := by
  intro M s
  refine ⟨Settings.check_eq_ok (by decide), ?_⟩
  have hchain : ((s.runChain [M] false false).run.run []).1.toOption.map (fun r =>
      (r.placements, r.circuits.map (·.parityMap.toOption))) =
        some ([[0, 1], [0, 1]], [some (identity 2)]) := by
    decide +kernel
  have hrelabel : M.relabel? [0, 1] [0, 1] = .ok M := by
    have hperm : IsPermutation [0, 1] 2 := isPermutation_range 2
    rw [relabel?_eq hperm hperm]
    exact congrArg _ M.relabel_range
  rcases hrun : (s.runChain [M] false false).run.run [] with ⟨_ | r, log⟩
  · rw [hrun] at hchain
    cases hchain
  · rw [hrun] at hchain
    obtain ⟨hplacements, hmaps⟩ := Prod.ext_iff.mp (Option.some.inj hchain)
    exact ⟨r, log, rfl, hplacements, hrelabel, hmaps, by decide⟩

end Setup

end Synthesis

end CnotSynthesis
