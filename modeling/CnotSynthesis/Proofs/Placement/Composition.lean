import CnotSynthesis.Proofs.Placement.Chain

/-! # Chains compose

The output placement of one circuit is the input placement of the next, so in a product of the
circuits all placements but the first and the last cancel.

* **`ParityMatrix.product`** — the product of matrices that act one after the other.
* **`Links.getElem?_eq`** — the circuit at each position, and its two placements.
* **`Links.product_eq`** — the product of the circuits is the product of the matrices, relabelled at
  the ends.
* **`Engine.synthesize_chains`** — the chain that every strategy finds, for every elimination that
  ends with the identity, every choice of free ends and every outcome of the draws. Only a swarm
  that cannot be held goes wrong. -/

namespace CnotSynthesis

/-! ## Products -/

/-- The product of `n × n` matrices that act one after the other: the last one stands in front. -/
def ParityMatrix.product (n : ℕ) (Ms : List ParityMatrix) : ParityMatrix :=
  Ms.foldl (fun P M => M.mul P) (ParityMatrix.identity n)

/-- A product of square matrices is square. -/
theorem ParityMatrix.foldl_mul_square {n : ℕ} {Ms : List ParityMatrix} (hMs : ∀ M ∈ Ms, M.rows = n)
    (P : ParityMatrix) (hrows : P.rows = n) (hcols : P.cols = n) :
    (Ms.foldl (fun P M => M.mul P) P).rows = n ∧ (Ms.foldl (fun P M => M.mul P) P).cols = n := by
  induction Ms generalizing P with
  | nil => exact ⟨hrows, hcols⟩
  | cons M Ms ih =>
    have hM : (M.mul P).rows = n := hMs M List.mem_cons_self
    exact ih (fun N hN => hMs N (List.mem_cons_of_mem _ hN)) (M.mul P) hM hcols

namespace Chain

open ParityMatrix

variable {n : ℕ} {E : ℕ → ℕ → Prop} {ps : List (List ℕ)} {Ms : List ParityMatrix}
  {cs : List Circuit}

/-! ## What the elements of a chain say -/

namespace Links

/-- A circuit for each matrix, and one placement more. -/
theorem length_eq (h : Links E n ps Ms cs) :
    cs.length = Ms.length ∧ ps.length = Ms.length + 1 := by
  induction h with
  | last => exact ⟨rfl, rfl⟩
  | link _ _ _ _ ih => simpa using ih

/-- **Each circuit of a chain** carries out its matrix, between its two placements. -/
theorem getElem?_eq (h : Links E n ps Ms cs) : ∀ {i : ℕ} {M : ParityMatrix}, Ms[i]? = some M →
    ∃ c p q, cs[i]? = some c ∧ ps[i]? = some p ∧ ps[i + 1]? = some q ∧ c.Realises M E ∧
      c.layout = some ⟨q, p⟩ := by
  induction h with
  | last => simp
  | link _ hc hlayout _ ih =>
    intro i N hN
    cases i with
    | zero =>
      rw [List.getElem?_cons_zero, Option.some_inj] at hN
      exact ⟨_, _, _, rfl, rfl, rfl, hN ▸ hc, hlayout⟩
    | succ i => exact ih hN

/-- The matrix of a circuit between two placements. -/
theorem parity_eq {M : ParityMatrix} {c : Circuit} {p q : List ℕ} (hp : IsPermutation p n)
    (hc : c.Realises M E) (hlayout : c.layout = some ⟨q, p⟩) :
    M.rows = n ∧ M.cols = n ∧ c.parity = M.relabel q p := by
  have hparity : c.parity = M.relabel q p := by
    rw [hc.parity_eq, hlayout]
    rfl
  have hqubits : c.qubits = n := by
    rw [← (hc.wellFormed.layout _ hlayout).2.length_eq, hp.length_eq]
  refine ⟨hc.qubits_eq.symm.trans hqubits, ?_, hparity⟩
  have hcols := c.cols_parity
  rw [hparity] at hcols
  exact hcols.trans hqubits

/-- **The product of the circuits**, started from `P` with its rows placed like the first columns:
the placements between two circuits cancel. -/
theorem foldl_parity_eq (h : Links E n ps Ms cs) (first : List ℕ) :
    ∀ P : ParityMatrix, P.rows = n →
      (cs.map Circuit.parity).foldl (fun P C => C.mul P) (P.relabel (ps.head?.getD []) first) =
        (Ms.foldl (fun P M => M.mul P) P).relabel (ps.getLast?.getD []) first := by
  induction h with
  | last => exact fun _ _ => rfl
  | @link p q ps M Ms c cs hp hc hlayout _ ih =>
    intro P hP
    obtain ⟨hrows, hcols, hparity⟩ := parity_eq hp hc hlayout
    -- the rows of the product so far are placed as the columns of this circuit are
    have hstep : c.parity.mul (P.relabel p first) = (M.mul P).relabel q first := by
      rw [hparity]
      exact relabel_mul_relabel (hcols ▸ hp) (hcols.trans hP.symm)
    have hrest := ih (M.mul P) hrows
    rw [List.map_cons, List.foldl_cons, List.foldl_cons, List.getLast?_cons_cons]
    change (cs.map Circuit.parity).foldl _ (c.parity.mul (P.relabel p first)) = _
    rw [hstep]
    exact hrest

/-- **All placements but the first and the last cancel.** -/
theorem product_eq (h : Links E n ps Ms cs) (hMs : ∀ M ∈ Ms, M.rows = n) :
    ∃ first last, ps.head? = some first ∧ ps.getLast? = some last ∧
      (product n Ms).relabel? last first = .ok (product n (cs.map Circuit.parity)) := by
  obtain ⟨first, hfirst⟩ := Option.ne_none_iff_exists'.mp (List.head?_eq_none_iff.not.mpr h.ne_nil)
  obtain ⟨last, hlast⟩ := Option.ne_none_iff_exists'.mp
    (List.getLast?_eq_none_iff.not.mpr h.ne_nil)
  have hpfirst := h.isPermutation first (List.mem_of_head? hfirst)
  have hplast := h.isPermutation last (List.mem_of_getLast? hlast)
  obtain ⟨hrows, hcols⟩ := foldl_mul_square hMs (identity n) rfl rfl
  have hproduct := h.foldl_parity_eq first (identity n) rfl
  rw [hfirst, hlast, Option.getD_some, Option.getD_some, relabel_identity hpfirst] at hproduct
  refine ⟨first, last, hfirst, hlast, ?_⟩
  unfold product
  rw [relabel?_eq (by rwa [hrows]) (by rwa [hcols]), hproduct]

end Links

/-! ## Every strategy -/

namespace Engine

variable {base : Method} {G? : Option CouplingGraph}

/-- **The eliminations that a chain is made with**, on a connected graph or none. -/
theorem works_of_base (hbase : base = .gauss true ∨ (∃ order, base = .steiner true order) ∨
      base = .rowCol)
    (hG : ∀ G ∈ G?, G.size = n ∧ G.isConnected = true ∧
      (base = .steiner true .byRow → G.SuffixConnected))
    (hroom : n < addressLimit) (reports : Bool) {search : SearchSettings}
    (hpopulation : 0 < search.genetic.populationSize) :
    ∃ E, Engine.Works ⟨base.reduce, reports, G?, search⟩ n E := by
  rcases hbase with rfl | ⟨order, rfl⟩ | rfl
  · exact ⟨_, Method.solves_gauss G? n, hroom, hpopulation⟩
  · have hsuits : ∀ G ∈ G?, G.Suits order n := fun G h =>
      ⟨(hG G h).1, (hG G h).2.1, fun horder => (hG G h).2.2 (horder ▸ rfl)⟩
    exact ⟨_, Method.solves_steiner hsuits, hroom, hpopulation⟩
  · have hsuits : ∀ G ∈ G?, G.Suits .byGraph n := fun G h =>
      CouplingGraph.suits_byGraph (hG G h).1 (hG G h).2.1
    exact ⟨_, Method.solves_rowCol hsuits, hroom, hpopulation⟩

/-- **A chain of invertible matrices** is found by every strategy, with every choice of free ends
and whatever is drawn: the elimination is Gaussian, Steiner or tied vertex elimination, on a
connected graph or none; the matrices and the swarm can be held. There is a circuit for each matrix
and one placement more; each circuit carries out its matrix with rows placed by the placement after
it and columns by the one before it, and has these two as its layout. The score is the sum of the
costs. Ends that are not free stay in place, and so does everything under the basic strategy. So the
product of the circuits is the product of the matrices, relabelled at the two ends. -/
theorem synthesize_chains (hbase : base = .gauss true ∨ (∃ order, base = .steiner true order) ∨
      base = .rowCol)
    (hG : ∀ G ∈ G?, G.size = n ∧ G.isConnected = true ∧
      (base = .steiner true .byRow → G.SuffixConnected))
    (hne : Ms ≠ []) (hMs : ∀ M ∈ Ms, M.rows = n ∧ M.IsInvertible)
    (hroom : requireShape n n = .ok ()) (search : SearchSettings)
    (hpopulation : 0 < search.genetic.populationSize) (strategy : Strategy)
    (inputFree outputFree : Bool)
    (hswarm : strategy = .swarm → inputFree = true → outputFree = true →
      search.swarm.swarmSize < addressLimit)
    (reports : Bool) (log : List Event) :
    let e : Engine := ⟨base.reduce, reports, G?, search⟩
    ∃ s events, (e.synthesize strategy Ms inputFree outputFree).run.run log =
        (.ok s, log ++ events) ∧
      s.circuits.length = Ms.length ∧ s.placements.length = Ms.length + 1 ∧
      (∀ p ∈ s.placements, IsPermutation p n) ∧
      (∀ i M, Ms[i]? = some M → ∃ c p q, s.circuits[i]? = some c ∧ s.placements[i]? = some p ∧
        s.placements[i + 1]? = some q ∧ c.layout = some ⟨q, p⟩ ∧ c.parityMap = .ok c.parity ∧
        M.relabel? q p = .ok c.parity) ∧
      s.score = min (s.circuits.map search.metric.score).sum infeasible ∧
      (inputFree = false → s.placements.head? = some (List.range n)) ∧
      (outputFree = false → s.placements.getLast? = some (List.range n)) ∧
      (strategy = .basic → ∀ p ∈ s.placements, p = List.range n) ∧
      ∃ first last, s.placements.head? = some first ∧ s.placements.getLast? = some last ∧
        (product n Ms).relabel? last first = .ok (product n (s.circuits.map Circuit.parity)) := by
  intro e
  obtain ⟨E, hworks⟩ := works_of_base hbase hG (lt_addressLimit hroom) reports hpopulation
  obtain ⟨s, events, hrun, hchains, hends⟩ :=
    (synthesize_yields (F := False) hworks hswarm hMs hne).run_eq log
  obtain ⟨hcircuits, hplacements⟩ := hchains.links.length_eq
  refine ⟨s, events, hrun, hcircuits, hplacements, hchains.links.isPermutation, ?_,
    hchains.score_eq, hends.first, hends.last, ?_,
    hchains.links.product_eq fun M hM => (hMs M hM).1⟩
  · intro i M hM
    obtain ⟨c, p, q, hc, hp, hq, hrealises, hlayout⟩ := hchains.links.getElem?_eq hM
    have hperm := hchains.links.isPermutation
    obtain ⟨hrows, hcols, hparity⟩ :=
      Links.parity_eq (hperm p (List.mem_of_getElem? hp)) hrealises hlayout
    refine ⟨c, p, q, hc, hp, hq, hlayout, ?_, ?_⟩
    · rw [hrealises.parityMap_eq (hrows ▸ hroom), hrealises.parity_eq]
    · rw [relabel?_eq (hrows ▸ hperm q (List.mem_of_getElem? hq))
        (hcols ▸ hperm p (List.mem_of_getElem? hp)), hparity]
  · intro hbasic
    exact hends.fixed (by rw [hbasic]; rfl) rfl

/-- Two matrices on four qubits around qubit 1, placed by a swarm. -/
theorem synthesize_chains_star :
    let G := CouplingGraph.assemble "star" 4 [1, 0, 2, 3] [(0, 1), (0, 2), (0, 3)] (by decide)
      (by simp [IsCoupling])
    let M := (((identity 4).addRow 0 2).addRow 2 3).addRow 3 0
    let N := ((identity 4).addRow 1 3).addRow 3 2
    let e : Engine := ⟨(Method.steiner true .byGraph).reduce, true, some G, SearchSettings.default⟩
    G.isConnected = true ∧ M.IsInvertible ∧ N.IsInvertible ∧
      ∃ s events, (e.synthesize .swarm [M, N] true true).run.run [] = (.ok s, events) ∧
        s.circuits.length = 2 ∧ s.placements.length = 3 ∧
        ∃ first last, s.placements.head? = some first ∧ s.placements.getLast? = some last ∧
          (N.mul (M.mul (identity 4))).relabel? last first =
            .ok (product 4 (s.circuits.map Circuit.parity)) := by
  intro G M N e
  have hG : G.isConnected = true := by decide
  have hM : M.IsInvertible := isInvertible_iff.mpr ⟨by decide, by decide⟩
  have hN : N.IsInvertible := isInvertible_iff.mpr ⟨by decide, by decide⟩
  have hgraph : ∀ H ∈ some G, H.size = 4 ∧ H.isConnected = true ∧
      (Method.steiner true .byGraph = .steiner true .byRow → H.SuffixConnected) := by
    rintro _ ⟨⟩
    exact ⟨rfl, hG, nofun⟩
  have hMs : ∀ L ∈ [M, N], L.rows = 4 ∧ L.IsInvertible := by
    intro L hL
    rcases List.mem_cons.mp hL with rfl | hL
    · exact ⟨rfl, hM⟩
    · rw [List.mem_singleton.mp hL]
      exact ⟨rfl, hN⟩
  obtain ⟨s, events, hrun, hcircuits, hplacements, _, _, _, _, _, _, hproduct⟩ :=
    synthesize_chains (.inr (.inl ⟨_, rfl⟩)) hgraph (List.cons_ne_nil _ _) hMs (by decide)
      SearchSettings.default (by decide) .swarm true true (fun _ _ _ => by decide) true []
  exact ⟨hG, hM, hN, s, events, hrun, hcircuits, hplacements, hproduct⟩

/-! ## Swarms that cannot be held -/

/-- One matrix of one entry and both ends free, but the swarm has `2^64 - 1` particles. -/
theorem synthesize_breaks_largest_swarm :
    let search : SearchSettings := { SearchSettings.default with
      swarm := { Swarm.Settings.default with swarmSize := 18446744073709551615 } }
    let e : Engine := ⟨(Method.gauss true).reduce, false, none, search⟩
    (identity 1).IsInvertible ∧ 0 < search.genetic.populationSize ∧
      ∃ log, (e.synthesize .swarm [identity 1] true true).run.run [] =
        (.error (.broken .capacity), log) := by
  intro search e
  have hM := isInvertible_identity 1
  have hworks : e.Works 1 (Routed none 1) :=
    ⟨Method.solves_gauss none 1, by decide, by decide⟩
  refine ⟨hM, by decide, ?_⟩
  rw [synthesize_swarm_singleton e rfl]
  exact swarm_breaks hworks (by decide) (solvable_singleton hM) (List.cons_ne_nil _ _) []

end Engine

end Chain

end CnotSynthesis
