import CnotSynthesis.Proofs.Elimination.CleanColumns
import CnotSynthesis.Proofs.Elimination.Companion
import CnotSynthesis.Proofs.Synthesis.Runs

/-! # Eliminations that only go down

Without the upward pass an elimination is to leave an upper triangular matrix. By row number it
does; in the order of the graph it leaves a matrix that is triangular along that order, and qubit 0
comes last there.

* **`Reduction.steiner_down_yields`** — what either order leaves.
* **`Reduction.exists_not_upper`** — on two or more qubits the order of the graph leaves some matrix
  as it is although it is not upper triangular.
* **`Setup.Produces.upper_or_along`** — what a synthesis leaves.
* **`Setup.upperTriangular_iff`** — the setups that leave upper triangular matrices only. -/

namespace CnotSynthesis

open ParityMatrix

namespace Reduction

variable {G : CouplingGraph} {F : Prop} {w : Work}

/-- The downward pass by row number alone. -/
theorem steinerByRow_down_yields (hsize : G.size = w.matrix.rows) :
    Yields (¬ G.SuffixConnected) (steinerByRow G false) w fun _ w' =>
      w'.matrix.isUpperTriangular = true := by
  refine yields_matrix_bind ?_
  refine (descend_yields w.matrix.cols 0 [] w hsize w.matrix.echelonTo_zero).bind ?_
  rintro columns w' ⟨_, hcols, hechelon⟩
  rw [List.nil_append, Nat.zero_add, ← hcols] at hechelon
  exact yields_pure hechelon.isUpperTriangular

/-- **Steiner elimination that only goes down** leaves an upper triangular matrix, or one that is
triangular along the order of the graph. -/
theorem steiner_down_yields (hG : G.isConnected = true) (order : PivotOrder)
    (hsize : G.size = w.matrix.rows) :
    Yields (¬ G.SuffixConnected) (steiner order false G) w fun _ w' =>
      w'.matrix.isUpperTriangular = true ∨ order = .byGraph ∧ w.matrix.IsInvertible ∧
        w'.matrix.TriangularTo G.eliminationOrder [] := by
  refine yields_matrix_bind ?_
  split
  · next hbranch =>
    obtain ⟨horder, hsquare, hrank⟩ := hbranch
    have hM : w.matrix.IsInvertible := isInvertible_iff.mpr ⟨(beq_iff_eq.mp hsquare).symm, hrank⟩
    refine (steinerAlongOrder_yields hG false hsize hM).mono ?_
    rintro k w' ⟨_, htri, _⟩
    exact .inr ⟨horder, hM, htri⟩
  · exact (steinerByRow_down_yields hsize).mono fun _ _ h => .inl h

/-- Row 0 added into row 1 makes a matrix that is triangular along every order with qubit 0 at the
end. -/
theorem triangularTo_addRow {n : ℕ} {front : List ℕ} (hn : 2 ≤ n)
    (horder : IsPermutation (front ++ [0]) n) :
    ((identity n).addRow 1 0).TriangularTo (front ++ [0]) [] := by
  have hentry := @entry_addRow_identity n 1 0 (by omega) (by omega) (by simp)
  obtain ⟨hfront, _, hlast⟩ := List.pairwise_append.mp horder.nodup
  have hzero : ∀ a ∈ front, a ≠ 0 := fun a ha => hlast a ha 0 List.mem_cons_self
  refine ⟨fun q hq => hentry.mpr (.inl ⟨horder.lt q hq, rfl⟩), ?_, by simp⟩
  refine List.pairwise_append.mpr ⟨hfront.imp_of_mem ?_, List.pairwise_singleton _ _, ?_⟩
  · intro a b ha _ hab
    rw [Bool.eq_false_iff]
    intro hone
    rcases hentry.mp hone with ⟨_, heq⟩ | ⟨_, heq⟩
    · exact hab heq.symm
    · exact hzero a ha heq
  · intro a ha b hb
    rw [List.mem_singleton.mp hb, Bool.eq_false_iff]
    intro hone
    rcases hentry.mp hone with ⟨_, heq⟩ | ⟨heq, _⟩
    · exact hzero a ha heq.symm
    · cases heq

/-- **The order of the graph is not that of the rows**: on two or more qubits some invertible matrix
is left as it is, with a one below the diagonal. -/
theorem exists_not_upper (hG : G.isConnected = true) (hn : 2 ≤ G.size) :
    ∃ M : ParityMatrix, M.rows = G.size ∧ M.isUpperTriangular = false ∧
      (∃ k, ((steiner .byGraph false G).plan M).outcome = .ok k) ∧
      ∀ k, ((steiner .byGraph false G).plan M).outcome = .ok k →
        ((steiner .byGraph false G).plan M).work.matrix = M := by
  obtain ⟨front, horder, _, hperm⟩ := CouplingGraph.eliminationOrder_spec hG (by omega)
  have hM := isInvertible_addRow_identity G.size one_ne_zero
  have htri : ((identity G.size).addRow 1 0).TriangularTo G.eliminationOrder [] := by
    rw [horder] at hperm ⊢
    exact triangularTo_addRow hn hperm
  have hyields : Yields False (steiner .byGraph false G) (Work.start ((identity G.size).addRow 1 0))
      fun _ w' => w'.matrix = (identity G.size).addRow 1 0 := by
    obtain ⟨hsquare, hrank⟩ := isInvertible_iff.mp hM
    refine yields_matrix_bind ?_
    rw [if_pos ⟨rfl, beq_iff_eq.mpr hsquare.symm, hrank⟩]
    refine (descendAlong_clean G.eliminationOrder _ hperm.nodup hperm.lt htri).bind ?_
    exact fun _ w' hw' => yields_pure hw'
  refine ⟨(identity G.size).addRow 1 0, rfl, ?_, hyields.exists_ok not_false, fun k hk =>
    hyields.of_ok hk⟩
  rw [Bool.eq_false_iff]
  intro hupper
  have hone := (entry_addRow_identity (n := G.size) (t := 1) (s := 0) (by omega) (by omega)
    one_ne_zero).mpr (.inr ⟨rfl, rfl⟩)
  have := isUpperTriangular_iff.mp hupper 1 0 hone
  omega

end Reduction

/-- Nothing stands below the diagonal of one row. -/
theorem ParityMatrix.isUpperTriangular_of_rows_le {M : ParityMatrix} (h : M.rows ≤ 1) :
    M.isUpperTriangular = true := by
  refine isUpperTriangular_iff.mpr fun r c hone => ?_
  have := (lt_of_entry hone).1
  omega

namespace Synthesis

namespace Setup

variable {s : Setup} {G? : Option CouplingGraph} {M : ParityMatrix} {o : Outcome}

/-- **What is left without the upward pass**: an upper triangular matrix, or one that is triangular
along the order of the graph. -/
theorem Produces.upper_or_along (h : s.Produces G? M o) (hmode : s.ReducesRows)
    (hdown : s.settings.fullReduce = false) (hgraph : ∀ G ∈ s.graph, G.isConnected = true)
    (hrouting : s.routingGraph M.rows = .ok G?) :
    o.matrix.isUpperTriangular = true ∨
      s.settings.mode = .steiner ∧ s.settings.pivotOrder = .byGraph ∧ M.IsInvertible ∧
        ∃ G, G? = some G ∧ o.matrix.TriangularTo G.eliminationOrder [] := by
  rcases hmode with hgauss | hsteiner
  · left
    have houtcome := h.outcome_eq
    have hmatrix := h.matrix_eq
    rw [elimination_gauss hgauss, Method.reduce_gauss] at houtcome hmatrix
    rw [← hmatrix]
    exact (Plan.eq_of_record_ok houtcome).2.1 ▸ (gauss_echelonTo _ M).isUpperTriangular
  · obtain ⟨G, rfl, hsize, hconnected, _⟩ :=
      routingGraph_connected hrouting (by rw [hsteiner]; rfl) hgraph
    have hplan := elimination_steiner (s := s) (M := M) hsteiner hsize
    rw [hdown] at hplan
    have hk := (hplan.1 _).mp h.outcome_eq
    rw [← h.matrix_eq, hplan.2]
    rcases (Reduction.steiner_down_yields hconnected _ hsize).of_ok hk with
      hupper | ⟨horder, hM, htri⟩
    · exact .inl hupper
    · exact .inr ⟨hsteiner, horder, hM, G, rfl, htri⟩

/-- Where pivots are taken in the order of the graph there are two or more qubits to work on, unless
the graph says otherwise. -/
theorem exists_routingGraph (hmode : s.settings.mode = .steiner)
    (hgraph : ∀ G ∈ s.graph, G.isConnected = true) (hsize : ∀ G ∈ s.graph, 1 < G.size) :
    ∃ G, s.routingGraph G.size = .ok (some G) ∧ G.isConnected = true ∧ 2 ≤ G.size := by
  cases h : s.graph with
  | some G => exact ⟨G, routingGraph_of_given h rfl, hgraph G h, hsize G h⟩
  | none =>
    refine ⟨CouplingGraph.complete 2, ?_, (CouplingGraph.suits_complete .byGraph 2).connected,
      le_rfl⟩
    unfold routingGraph
    rw [h, hmode]
    rfl

/-- **Eliminations that only go down**, on a connected graph or on none: what is left is upper
triangular for every matrix exactly if pivots are not taken in the order of the graph, or there are
no two qubits. In any case it is upper triangular, or the matrix was invertible and what is left is
triangular along the order of the graph. -/
theorem upperTriangular_iff
    (hmode : s.settings.mode = .gauss ∨ s.settings.mode = .steiner)
    (hdown : s.settings.fullReduce = false) (hgraph : ∀ G ∈ s.graph, G.isConnected = true) :
    ((∀ M o log log', (s.run M).run.run log = (.ok o, log') →
        o.matrix.isUpperTriangular = true) ↔
      (s.settings.mode = .gauss ∨ s.settings.pivotOrder = .byRow ∨ ∃ G ∈ s.graph, G.size ≤ 1)) ∧
    ∀ M o log log', (s.run M).run.run log = (.ok o, log') →
      o.matrix.isUpperTriangular = true ∨
        s.settings.mode = .steiner ∧ s.settings.pivotOrder = .byGraph ∧ M.IsInvertible ∧
          ∃ G, s.routingGraph M.rows = .ok (some G) ∧
            o.matrix.TriangularTo G.eliminationOrder [] := by
  have htries : s.settings.triesTranspose = false := by simp [Settings.triesTranspose, hdown]
  refine ⟨⟨fun hupper => ?_, ?_⟩, ?_⟩
  · by_contra hnot
    push Not at hnot
    obtain ⟨hgauss, horder, hsize⟩ := hnot
    have hsteiner := hmode.resolve_left hgauss
    have hbyGraph : s.settings.pivotOrder = .byGraph := by
      cases h : s.settings.pivotOrder with
      | byGraph => rfl
      | byRow => exact absurd h horder
    obtain ⟨G, hrouting, hconnected, hn⟩ := exists_routingGraph hsteiner hgraph hsize
    obtain ⟨M, hrows, hlower, ⟨k, hk⟩, hsame⟩ := Reduction.exists_not_upper hconnected hn
    have hplan := elimination_steiner (s := s) (M := M) hsteiner hrows.symm
    rw [hdown, hbyGraph] at hplan
    obtain ⟨o, ho⟩ := exists_produces ((hplan.1 k).mpr hk)
    rw [← hrows] at hrouting
    obtain ⟨log', hrun⟩ := (run_eq_ok_iff_of_not_tries htries []).mpr ⟨_, hrouting, ho⟩
    have hkept : o.matrix = M := by rw [← ho.matrix_eq, hplan.2, hsame k hk]
    have := hupper M o [] log' hrun
    rw [hkept, hlower] at this
    cases this
  · intro hcases M o log log' hrun
    obtain ⟨G?, hrouting, ho⟩ := (run_eq_ok_iff_of_not_tries htries log).mp ⟨log', hrun⟩
    rcases ho.upper_or_along hmode hdown hgraph hrouting with hupper | ⟨hsteiner, horder, _⟩
    · exact hupper
    · rcases hcases with hgauss | hbyRow | ⟨G, hG, hsize⟩
      · rw [hsteiner] at hgauss
        cases hgauss
      · rw [horder] at hbyRow
        cases hbyRow
      · have hrows := (ho.factors hmode).rows_eq
        rw [ho.matrix_eq, ← (routingGraph_given hrouting hG).2] at hrows
        exact isUpperTriangular_of_rows_le (hrows ▸ hsize)
  · intro M o log log' hrun
    obtain ⟨G?, hrouting, ho⟩ := (run_eq_ok_iff_of_not_tries htries log).mp ⟨log', hrun⟩
    rcases ho.upper_or_along hmode hdown hgraph hrouting with
      hupper | ⟨hsteiner, horder, hM, G, rfl, htri⟩
    · exact .inl hupper
    · exact .inr ⟨hsteiner, horder, hM, G, hrouting, htri⟩

/-- Three qubits in a line, pivots by row number. -/
theorem upperTriangular_line :
    let s : Setup :=
      { settings := { Settings.default with fullReduce := false, pivotOrder := .byRow }
        graph := some (CouplingGraph.line 3) }
    s.settings.check = .ok () ∧
      ∀ M o log log', (s.run M).run.run log = (.ok o, log') →
        o.matrix.isUpperTriangular = true := by
  intro s
  have hG : (CouplingGraph.line 3).isConnected = true := by decide
  refine ⟨Settings.check_eq_ok (by decide), (upperTriangular_iff (.inr rfl) rfl ?_).1.mpr
    (.inr (.inl rfl))⟩
  rintro _ ⟨⟩
  exact hG

/-- Two coupled qubits, pivots in the order of the graph: the one below the diagonal stays. -/
theorem not_upperTriangular_line :
    let G := CouplingGraph.line 2
    let M := (identity 2).addRow 1 0
    let s : Setup :=
      { settings := { Settings.default with fullReduce := false }, graph := some G }
    s.settings.check = .ok () ∧ s.settings.mode = .steiner ∧ G.isConnected = true ∧
      ∃ o log, (s.run M).run.run [] = (.ok o, log) ∧ o.matrix.isUpperTriangular = false := by
  intro G M s
  refine ⟨Settings.check_eq_ok (by decide), rfl, by decide, ?_⟩
  have hlower : (((s.run M).run.run []).1.toOption.map (·.matrix.isUpperTriangular)) =
      some false := by decide +kernel
  rcases hrun : (s.run M).run.run [] with ⟨_ | o, log⟩
  · rw [hrun] at hlower
    cases hlower
  · rw [hrun] at hlower
    exact ⟨o, log, rfl, Option.some.inj hlower⟩

end Setup

end Synthesis

end CnotSynthesis
