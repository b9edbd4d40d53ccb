import CnotSynthesis.Proofs.Elimination.Rounds

/-! # Searches that are greedy

A best-first search without a budget finishes its first prospect, and one that tries a single pair
follows the strategy. Both do what the greedy elimination does, wherever the search stops.

* **`Prospect.settle_child`** — a prospect and its offshoot for the strategy's own choice are
  finished in the same way.
* **`pairsTried_of_width_le_one`** — a narrow search tries that choice only.
* **`bestFirst_eq_settle`** — so the search ends with what finishing the first prospect gives.
* **`Method.bestFirst_eq_greedy`** — the two eliminations agree. -/

namespace CnotSynthesis

open Work ParityMatrix

variable {G : CouplingGraph} {choose : PairStrategy} {M : ParityMatrix}

/-! ## Finishing a prospect -/

namespace Prospect

variable {p q : Prospect}

/-- What finishing a prospect gives depends on the outcome and the row additions alone. -/
theorem settle_eq (hwires : p.circuit.qubits = G.size) :
    p.settle G choose =
      ((Reduction.eliminateAll G choose p.remaining).exec (.start p.matrix)).1.map fun final =>
        (p.additions ++ rowAdditions ((Reduction.eliminateAll G choose p.remaining).exec
          (.start p.matrix)).2.events, final.output) := by
  unfold settle
  rw [advance_eq hwires (Reduction.proceeds_eliminateAll choose p.remaining)]
  rcases (Reduction.eliminateAll G choose p.remaining).exec (.start p.matrix) with ⟨_ | final, w⟩
  · rfl
  · show Except.ok (((p.circuit.prepend _).gates.reverse.map Gate.addition), final.output) = _
    rw [Circuit.reverse_additions_prepend]
    rfl

/-- **The strategy's own offshoot** is finished like the prospect it comes from: its pair is the one
that finishing begins with. -/
theorem settle_child {number row column : ℕ} (hwires : p.circuit.qubits = G.size)
    (hnodup : p.remaining.rows.Nodup) (hlong : 1 < p.remaining.rows.length)
    (hchoose : choose p.matrix p.remaining (G.removable p.remaining.rows) = some (row, column))
    (hchild : p.child G number (row, column) = .ok q) :
    q.settle G choose = p.settle G choose := by
  obtain ⟨w, hexec, hmatrix, hcircuit, hremaining, _⟩ := child_ok hchild
  have hwires' : q.circuit.qubits = G.size := by rw [hcircuit]; exact hwires
  have hlength : q.remaining.rows.length + 1 = p.remaining.rows.length := by
    rw [hremaining]
    exact length_filter_ne hnodup (mem_rows_of_clearPair hexec)
  -- finishing the prospect begins with the pair of the offshoot
  have hfirst : (Reduction.eliminateAll G choose p.remaining).exec (.start p.matrix) =
      (Reduction.eliminateAll G choose q.remaining).exec (w.note (.vertex row column)) := by
    unfold Reduction.eliminateAll
    rw [← hlength, Reduction.exec_eliminateFrom_pair hlong hchoose hexec, hremaining]
  -- the note of the pair is no row addition, and the others are in the circuit of the offshoot
  have hlog := Script.rowAdditions_exec (Reduction.eliminateAll G choose q.remaining)
    (w.note (.vertex row column))
  rw [rowAdditions_note rfl, show (w.note (.vertex row column)).matrix = q.matrix from hmatrix.symm]
    at hlog
  have houtcome : ((Reduction.eliminateAll G choose q.remaining).exec
      (w.note (.vertex row column))).1 =
      ((Reduction.eliminateAll G choose q.remaining).exec (.start q.matrix)).1 := by
    rw [Script.exec_eq, hmatrix]
    rfl
  rw [settle_eq hwires, settle_eq hwires', hfirst, houtcome, hlog, additions_prepend hcircuit,
    List.append_assoc]

/-- The first prospect is finished as the whole elimination is carried out. -/
theorem settle_start {final : Remaining} {w : Work} (hsize : G.size = M.rows)
    (h : (Reduction.eliminateAll G choose (Remaining.start M.rows)).exec (.start M) =
      (.ok final, w)) :
    (start M).settle G choose = .ok (rowAdditions w.events, final.output) := by
  have h : (Reduction.eliminateAll G choose (start M).remaining).exec (.start (start M).matrix) =
      (.ok final, w) := h
  rw [settle_eq hsize.symm, h]
  rfl

end Prospect

/-! ## Degenerate searches -/

/-- **A narrow search** tries the strategy's own choice. -/
theorem pairsTried_of_width_le_one {width : ℕ} (hwidth : width ≤ 1) {p : Remaining} {pair : ℕ × ℕ}
    (h : choose M p (G.removable p.rows) = some pair) : pairsTried G choose width M p = [pair] := by
  have hmax : max width 1 = 1 := by omega
  unfold pairsTried
  dsimp only
  rw [h, hmax]
  rfl

/-- A narrow search with one prospect ends with what finishing that one gives, whatever its budget:
each step replaces the prospect by one that is finished in the same way. -/
theorem bestFirstFrom_singleton (hguides : choose.Guides G fun _ => True) {width : ℕ}
    (hwidth : width ≤ 1) (budget : ℕ) : ∀ (made : ℕ) {p : Prospect}, p.Sound False G M →
      bestFirstFrom G choose width budget made [p] = p.settle G choose := by
  induction budget with
  | zero => exact fun _ _ _ => rfl
  | succ budget ih =>
    intro made p h
    by_cases hlong : 1 < p.remaining.rows.length
    · obtain ⟨row, column, hchoose, hpair⟩ := hguides h.fits (h.connected not_false) trivial hlong
      obtain ⟨q, hchild, hq⟩ : ∃ q, p.child G made (row, column) = .ok q ∧ q.Sound False G M :=
        h.exists_child hpair made
      have hoffshoots : offshoots G p made (pairsTried G choose width p.matrix p.remaining) =
          .ok [q] := by
        rw [pairsTried_of_width_le_one hwidth hchoose]
        simp [offshoots, hchild]
        rfl
      -- the step leaves the offshoot as the only prospect
      have hstep : Search.Expands G choose width ⟨budget + 1, made, [p]⟩
          ⟨budget, made + 1, [p].filter (fun other => other.number != p.number) ++ [q]⟩ :=
        .expand rfl hlong hoffshoots
      rw [show [p].filter (fun other => other.number != p.number) = [] by simp] at hstep
      calc bestFirstFrom G choose width (budget + 1) made [p]
          = bestFirstFrom G choose width budget (made + 1) [q] := hstep.result_eq
        _ = q.settle G choose := ih (made + 1) hq
        _ = p.settle G choose :=
            Prospect.settle_child h.wires h.fits.nodup_rows hlong hchoose hchild
    · exact if_pos (show p.remaining.rows.length ≤ 1 by omega)

/-- **A search without a budget or of width at most one** finishes its first prospect. -/
theorem bestFirst_eq_settle (hguides : choose.Guides G fun _ => True) (hM : M.IsInvertible)
    (hsize : G.size = M.rows) (hG : G.isConnected = true) {settings : BestFirst}
    (h : settings.budget = 0 ∨ settings.width ≤ 1) :
    bestFirst G choose settings M = (Prospect.start M).settle G choose := by
  unfold bestFirst
  rcases h with hbudget | hwidth
  · rw [hbudget]
    rfl
  · exact bestFirstFrom_singleton hguides hwidth _ _ (Prospect.sound_start hM hsize fun _ => hG)

/-! ## Whole eliminations -/

namespace Method

variable {row : RowStrategy} {column : ColumnStrategy} {G? : Option CouplingGraph}
  {c? : Option Circuit}

/-- **A degenerate search is greedy**: without a budget, or with at most one pair tried, best-first
elimination succeeds with the output, the matrix and the circuit of the greedy one. The row strategy
must choose a candidate, and the column strategy a remaining column at least when the row holds a
one in one of them. -/
theorem bestFirst_eq_greedy
    (hrow : ∀ N candidates columns, candidates ≠ [] →
      ∃ r ∈ candidates, row N candidates columns = some r)
    (hcolumn : ∀ N r rows columns, (∃ c ∈ columns, N.entry r c = true) →
      ∃ c ∈ columns, column N r rows columns = some c)
    (hM : M.IsInvertible) (hG : ∀ G ∈ G?, G.size = M.rows ∧ G.isConnected = true)
    (hc : ∀ c ∈ c?, c.qubits = M.rows) {settings : BestFirst}
    (hdegenerate : settings.budget = 0 ∨ settings.width ≤ 1) :
    let best := permute row column (some settings) G? M c?
    let greedy := permute row column none G? M c?
    ∃ output, best.outcome = .ok output ∧ greedy.outcome = .ok output ∧
      best.matrix = greedy.matrix ∧ best.circuit = greedy.circuit := by
  intro best greedy
  obtain ⟨G, hgraph, hsuits⟩ : ∃ G, graphFor G? M.rows = .ok G ∧ G.Suits .byGraph M.rows :=
    graphFor_suits fun G h => CouplingGraph.suits_byGraph (hG G h).1 (hG G h).2
  have hguides : (freePair row column).Guides G fun _ => True := guides_of_picks G hrow hcolumn
  have hwires : ∀ c ∈ c?, M.rows ≤ c.qubits := fun c h => (hc c h).ge
  -- the greedy elimination, carried out
  have hsound : (Stage.start M).Sound G fun _ => True :=
    Stage.sound_start hM hsuits.size_eq hsuits.connected trivial
  obtain ⟨t, _, _, hexec⟩ := (hsound.roundsHold (PairStrategy.keeps_true _) hguides).ends
  have hexec : (Reduction.eliminateAll G (freePair row column) (Remaining.start M.rows)).exec
      (Work.start M) = (.ok t.remaining, t.work) := hexec
  have hgreedy := Reduction.plan_permRowCol_none hM hgraph hexec
  have hsteps := Reduction.proceeds_eliminateAll (G := G) (freePair row column)
    (Remaining.start M.rows) (Work.start M)
  rw [hexec] at hsteps
  have hmatrix : t.work.matrix = M.addRows (rowAdditions t.work.events) := hsteps.explains
  -- the search finishes its first prospect, which is the greedy elimination
  have hfound : bestFirst G (freePair row column) settings M =
      .ok (rowAdditions t.work.events, t.remaining.output) := by
    rw [bestFirst_eq_settle hguides hM hsuits.size_eq hsuits.connected hdegenerate]
    exact Prospect.settle_start hsuits.size_eq hexec
  obtain ⟨houtcome, hbest⟩ := Reduction.plan_permRowCol_some hM hgraph hfound
  have hops := Reduction.rowAdditions_permRowCol_some hM hgraph hfound
  have hbest_eq : best = _ := permute_eq row column (some settings) hwires
  have hgreedy_eq : greedy = _ := permute_eq row column none hwires
  refine ⟨t.remaining.output, ?_⟩
  rw [hbest_eq, hgreedy_eq]
  dsimp only
  rw [hgreedy, houtcome, hbest, hops]
  exact ⟨rfl, rfl, hmatrix.symm, rfl⟩

/-- The lightest row and the lightest column for it, on a line of three qubits: a search of width
one. -/
theorem bestFirst_eq_greedy_line :
    let M := (identity 3).addRow 0 1
    let run search := permute lightestRow lightestColumn search (some (CouplingGraph.line 3)) M
      (some (Circuit.empty 3))
    M.IsInvertible ∧ (CouplingGraph.line 3).isConnected = true ∧
      ∃ output, (run (some ⟨1, 5⟩)).outcome = .ok output ∧ (run none).outcome = .ok output ∧
        (run (some ⟨1, 5⟩)).matrix = (run none).matrix ∧
        (run (some ⟨1, 5⟩)).circuit = (run none).circuit := by
  intro M run
  have hM : M.IsInvertible := isInvertible_iff.mpr ⟨by decide, by decide⟩
  have hline : (CouplingGraph.line 3).isConnected = true := by decide
  refine ⟨hM, hline, ?_⟩
  exact bestFirst_eq_greedy picks_lightestRow picks_lightestColumn hM
    (by rintro _ ⟨⟩; exact ⟨rfl, hline⟩) (by rintro _ ⟨⟩; rfl) (.inr le_rfl)

end Method

end CnotSynthesis
