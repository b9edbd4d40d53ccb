import CnotSynthesis.Proofs.Circuit.Realisation
import CnotSynthesis.Proofs.Elimination.BestFirst
import CnotSynthesis.Proofs.Elimination.SteinerByRow

/-! # Eliminations solve invertible matrices

* **`Run.Makes r n c`** — the run succeeded and left the circuit `c` on `n` qubits.
* **`Run.Solves r M E c`** — the run found full rank and left the circuit `c` for `M`.
* **`Reducer.Solves reduce G? n E`** — every invertible matrix of `n` rows is reduced to the
  identity, and the circuit has no layout. On a graph that suits or on none it holds of Gaussian
  elimination (**`Method.solves_gauss`**), of Steiner elimination (**`Method.solves_steiner`**) and
  of tied vertex elimination (**`Method.solves_rowCol`**).
* **`Run.Permutes r M E output c`** — what free vertex elimination ends with: a permutation matrix,
  and a circuit that makes up for the rest (**`Method.permutes_of_ok`**). The layout of the columns
  makes it a circuit for the matrix (**`Method.permRowCol_solves`**). -/

namespace CnotSynthesis

open ParityMatrix

variable {G : CouplingGraph} {G? : Option CouplingGraph} {M : ParityMatrix} {E : ℕ → ℕ → Prop}

/-- **A run that made a circuit** on `n` qubits. -/
structure Run.Makes (r : Run ℕ) (n : ℕ) (c : Circuit) : Prop where
  outcome_ok : ∃ k, r.outcome = .ok k
  circuit_eq : r.circuit = some c
  wellFormed : c.WellFormed
  qubits_eq : c.qubits = n

/-- **A solved matrix.** -/
structure Run.Solves (r : Run ℕ) (M : ParityMatrix) (E : ℕ → ℕ → Prop) (c : Circuit) : Prop where
  outcome_eq : r.outcome = .ok M.rows
  circuit_eq : r.circuit = some c
  realises : c.Realises M E

/-- A run that solves has made its circuit. -/
theorem Run.Solves.makes {r : Run ℕ} {c : Circuit} {n : ℕ} (h : r.Solves M E c)
    (hrows : M.rows = n) : r.Makes n c :=
  ⟨⟨_, h.outcome_eq⟩, h.circuit_eq, h.realises.wellFormed, h.realises.qubits_eq.trans hrows⟩

/-- **An elimination that solves all invertible matrices** of `n` rows. -/
def Reducer.Solves (reduce : Reducer) (G? : Option CouplingGraph) (n : ℕ) (E : ℕ → ℕ → Prop) :
    Prop :=
  ∀ M : ParityMatrix, M.rows = n → M.IsInvertible →
    ∃ c, (reduce G? M (some (Circuit.empty n))).Solves M E c ∧ c.layout = none ∧
      (reduce G? M (some (Circuit.empty n))).matrix = identity n

/-! ## Graphs -/

/-- **A graph that suits** eliminations of `n` rows with pivots in the given order: connected, and
for pivots by row number from every number on. -/
structure CouplingGraph.Suits (G : CouplingGraph) (order : PivotOrder) (n : ℕ) : Prop where
  size_eq : G.size = n
  connected : G.isConnected = true
  suffix : order = .byRow → G.SuffixConnected

/-- Pivots in the order of the graph ask for no more than connectedness. -/
theorem CouplingGraph.suits_byGraph {n : ℕ} (hsize : G.size = n) (hG : G.isConnected = true) :
    G.Suits .byGraph n :=
  ⟨hsize, hG, nofun⟩

/-- The complete graph suits both orders. -/
theorem CouplingGraph.suits_complete (order : PivotOrder) (n : ℕ) :
    (CouplingGraph.complete n).Suits order n where
  size_eq := rfl
  connected := isConnected_iff.mpr (connectedOn_complete fun _ h => h)
  suffix := fun _ _ => connectedOn_complete fun _ h => h.2

/-- The graph of an elimination: the given one, or a complete one. -/
theorem graphFor_eq {n : ℕ} (h : ∀ G ∈ G?, G.size = n) :
    ∃ G, graphFor G? n = .ok G ∧ G.size = n ∧ (G? = some G ∨ G? = none ∧ G = .complete n) := by
  cases G? with
  | none => exact ⟨.complete n, rfl, rfl, .inr ⟨rfl, rfl⟩⟩
  | some G => exact ⟨G, if_pos (h G rfl), h G rfl, .inl rfl⟩

/-- The graph that is there suits the order if the given one does. -/
theorem graphFor_suits {order : PivotOrder} {n : ℕ} (h : ∀ G ∈ G?, G.Suits order n) :
    ∃ G, graphFor G? n = .ok G ∧ G.Suits order n := by
  obtain ⟨G, hG, _, rfl | ⟨_, rfl⟩⟩ := graphFor_eq fun G hG => (h G hG).size_eq
  · exact ⟨G, hG, h G rfl⟩
  · exact ⟨_, hG, CouplingGraph.suits_complete order n⟩

/-- Routed circuits are supported. -/
theorem CouplingGraph.supports_of_realises {c : Circuit} {n : ℕ}
    (h : c.Realises M (Routed (some G) n)) (hsize : G.size = M.rows) : G.supports c = true := by
  unfold supports
  rw [h.qubits_eq, hsize, beq_self_eq_true, Bool.true_and, List.all_eq_true]
  intro g hg
  exact (G.hasEdge_comm _ _).trans ((h.allowed g hg).2 G rfl)

/-! ## Plans recorded from the start -/

/-- A circuit without gates is well formed. -/
theorem Circuit.wellFormed_empty (n : ℕ) : (Circuit.empty n).WellFormed :=
  ⟨by simp [Circuit.empty], by simp [Circuit.empty]⟩

/-- A plan with row additions between rows of the matrix only is recorded in full by a circuit with
enough wires. -/
theorem Plan.record_of_steps {α : Type} (p : Plan α) {c? : Option Circuit}
    (hsteps : Work.Steps E (Work.start M) p.work)
    (hE : ∀ t s, E t s → (⟨t, s⟩ : RowAddition).IsProper M.rows)
    (hc : ∀ c ∈ c?, M.rows ≤ c.qubits) :
    p.record M c? = ⟨p.work.matrix, c?.map (·.prepend (rowAdditions p.work.events)),
      p.work.events, p.outcome.mapError .refused⟩ := by
  obtain ⟨ops, hops, hevents, _⟩ := hsteps.exists_addRows
  have hevents : rowAdditions p.work.events = ops := hevents
  refine p.record_of_isProper ?_ hc
  rw [hevents]
  exact fun op hop => hE _ _ (hops op hop)

/-- A successful plan, recorded in an empty circuit: the circuit times the reduced matrix is the
matrix that was reduced. -/
theorem Plan.record_empty {α : Type} (p : Plan α) {a : α}
    (hsteps : Work.Steps E (Work.start M) p.work)
    (hE : ∀ t s, E t s → (⟨t, s⟩ : RowAddition).IsProper M.rows) (ha : p.outcome = .ok a) :
    ∃ c, p.record M (some (Circuit.empty M.rows)) =
        ⟨p.work.matrix, some c, p.work.events, .ok a⟩ ∧
      c.layout = none ∧ c.qubits = M.rows ∧ c.WellFormed ∧ c.parity.mul p.work.matrix = M ∧
      ∀ g ∈ c.gates, E g.target g.control := by
  obtain ⟨ops, hops, hevents, hmatrix⟩ := hsteps.exists_addRows
  have hevents : rowAdditions p.work.events = ops := hevents
  have hproper : ∀ op ∈ ops, op.IsProper M.rows := fun op hop => hE _ _ (hops op hop)
  have hparity : (Circuit.empty M.rows).parity = identity M.rows := rfl
  refine ⟨(Circuit.empty M.rows).prepend ops, ?_, rfl, rfl,
    (Circuit.wellFormed_empty _).prepend hproper, ?_, ?_⟩
  · rw [p.record_of_steps hsteps hE (by simp [Circuit.empty]), hevents, ha]
    rfl
  · rw [hmatrix]
    change ((Circuit.empty M.rows).prepend ops).parity.mul (M.addRows ops) = M
    rw [Circuit.parity_prepend_mul _ rfl fun op hop => (hproper op hop).2.2, hparity,
      identity_mul rfl]
  · intro g hg
    rcases List.mem_append.mp hg with hg | hg
    · obtain ⟨op, hop, rfl⟩ := List.mem_map.mp (List.mem_reverse.mp hg)
      exact hops op hop
    · cases hg

/-- A plan that ends with the identity. -/
theorem Plan.solves_record (p : Plan ℕ) (hsteps : Work.Steps E (Work.start M) p.work)
    (hE : ∀ t s, E t s → (⟨t, s⟩ : RowAddition).IsProper M.rows)
    (hrank : p.outcome = .ok M.rows) (hidentity : p.work.matrix = identity M.rows) :
    ∃ c, (p.record M (some (Circuit.empty M.rows))).Solves M E c ∧ c.layout = none ∧
      (p.record M (some (Circuit.empty M.rows))).matrix = identity M.rows := by
  obtain ⟨c, hrecord, hlayout, hqubits, hwell, hmul, hgates⟩ := p.record_empty hsteps hE hrank
  have hparity : c.parity = M := by
    rw [hidentity, mul_identity (by rw [c.cols_parity, hqubits])] at hmul
    exact hmul
  rw [hrecord]
  refine ⟨c, ⟨rfl, rfl, hwell, hqubits, ?_, hgates⟩, hlayout, hidentity⟩
  rw [hlayout]
  exact hparity

namespace Method

/-- Tied vertex elimination beside a circuit with enough wires. -/
theorem rowCol_reduce_eq {c? : Option Circuit} (hc : ∀ c ∈ c?, M.rows ≤ c.qubits) :
    let p := (Reduction.rowCol G?).plan M
    Method.rowCol.reduce G? M c? = ⟨p.work.matrix,
      c?.map (·.prepend (rowAdditions p.work.events)), p.work.events,
      p.outcome.mapError .refused⟩ := by
  rw [reduce_rowCol]
  exact Plan.record_of_steps _ (Reduction.steps_rowCol G? (Work.start M)) (fun _ _ h => h.1) hc

/-- Free vertex elimination beside a circuit with enough wires. -/
theorem permute_eq (row : RowStrategy) (column : ColumnStrategy) (search : Option BestFirst)
    {c? : Option Circuit} (hc : ∀ c ∈ c?, M.rows ≤ c.qubits) :
    let p := (Reduction.permRowCol (freePair row column) search G?).plan M
    permute row column search G? M c? = ⟨p.work.matrix,
      c?.map (·.prepend (rowAdditions p.work.events)), p.work.events,
      p.outcome.mapError .refused⟩ := by
  rw [permute_eq_record]
  exact Plan.record_of_steps _ (Reduction.steps_permRowCol _ search G? (Work.start M))
    (fun _ _ h => h.1) hc

/-! ## Eliminations that end with the identity -/

/-- **Gaussian elimination solves** invertible matrices, whatever graph is given. -/
theorem solves_gauss (G? : Option CouplingGraph) (n : ℕ) :
    (Method.gauss true).reduce.Solves G? n (Routed none n) := by
  rintro M rfl hM
  obtain ⟨hsquare, hrank⟩ := isInvertible_iff.mp hM
  have hsteps := (steps_gaussPlan true M).mono fun t s h => (⟨h, by simp⟩ : Routed none M.rows t s)
  rw [reduce_gauss]
  refine (gaussPlan true M).solves_record hsteps (fun t s h => h.1) ?_
    (gauss_eq_identity hsquare hrank)
  exact congrArg _ ((gauss_rank true M).trans hrank)

/-- Steiner elimination of an invertible matrix that goes through ends with the identity. -/
theorem steiner_plan_of_ok (hG : G.isConnected = true) {order : PivotOrder}
    (hsize : G.size = M.rows)
    (hM : M.IsInvertible) {k : ℕ} (hk : ((Reduction.steiner order true G).plan M).outcome = .ok k) :
    k = M.rows ∧ ((Reduction.steiner order true G).plan M).work.matrix = identity M.rows := by
  have hyields := Reduction.steiner_yields hG order (w := Work.start M) hsize
  obtain ⟨pivots, hreduced, hlength⟩ := hyields.of_ok hk
  obtain ⟨hcoupled, hmatrix⟩ := (Reduction.proceeds_steiner (G := G) order true).exists_addRows M
  -- the reduced form is that of Gaussian elimination
  obtain ⟨hsquare, hrank⟩ := isInvertible_iff.mp hM
  rw [hmatrix] at hreduced
  obtain ⟨heq, hpivots⟩ :=
    gauss_unique (fun op hop => CouplingGraph.ne_of_hasEdge (hcoupled op hop)) hreduced
  rw [hmatrix, heq, gauss_eq_identity hsquare hrank]
  exact ⟨by rw [hlength, hpivots, gauss_rank, hrank], rfl⟩

/-- On a graph that suits it goes through. -/
theorem steiner_plan_exists_ok {order : PivotOrder} (hG : G.Suits order M.rows)
    (hM : M.IsInvertible) : ∃ k, ((Reduction.steiner order true G).plan M).outcome = .ok k := by
  cases order with
  | byGraph =>
    exact (Reduction.steiner_byGraph_yields (F := False) hG.connected true (w := Work.start M)
      hG.size_eq hM).exists_ok not_false
  | byRow =>
    exact (Reduction.steiner_yields hG.connected .byRow (w := Work.start M) hG.size_eq).exists_ok
      (not_not.mpr (hG.suffix rfl))

/-- **Steiner elimination that goes through** solves an invertible matrix, on any connected
graph. -/
theorem steiner_solves_of_ok (hgraph : graphFor G? M.rows = .ok G) (hsize : G.size = M.rows)
    (hG : G.isConnected = true) {order : PivotOrder} (hM : M.IsInvertible) {k : ℕ}
    (hk : ((Reduction.steiner order true G).plan M).outcome = .ok k) :
    ∃ c, ((Method.steiner true order).reduce G? M (some (Circuit.empty M.rows))).Solves M
        (Routed G? M.rows) c ∧ c.layout = none ∧
      ((Method.steiner true order).reduce G? M (some (Circuit.empty M.rows))).matrix =
        identity M.rows := by
  obtain ⟨hrank, hmatrix⟩ := steiner_plan_of_ok hG hsize hM hk
  rw [hrank] at hk
  rw [← plan_steinerReduction_of_graphFor true order hgraph] at hk hmatrix
  have hsteps := steps_steinerReduction true order G? (Work.start M)
  rw [reduce_steiner]
  exact Plan.solves_record _ hsteps (fun t s h => h.1) hk hmatrix

/-- **Steiner elimination solves** invertible matrices on a graph that suits. -/
theorem solves_steiner {order : PivotOrder} {n : ℕ} (h : ∀ G ∈ G?, G.Suits order n) :
    (Method.steiner true order).reduce.Solves G? n (Routed G? n) := by
  rintro M rfl hM
  obtain ⟨G, hgraph, hG⟩ := graphFor_suits h
  obtain ⟨k, hk⟩ := steiner_plan_exists_ok hG hM
  exact steiner_solves_of_ok hgraph hG.size_eq hG.connected hM hk

/-- **Tied vertex elimination solves** invertible matrices on a connected graph. -/
theorem solves_rowCol {order : PivotOrder} {n : ℕ} (h : ∀ G ∈ G?, G.Suits order n) :
    Method.rowCol.reduce.Solves G? n (Routed G? n) := by
  rintro M rfl hM
  obtain ⟨G, hgraph, hG⟩ := graphFor_suits h
  obtain ⟨k, w, hexec, hk, hmatrix⟩ := (Reduction.rowCol_yields (F := False) (w := Work.start M) hM
    hgraph hG.size_eq hG.connected).exec_eq
  have hsteps := Reduction.steps_rowCol G? (Work.start M)
  have hplan : (Reduction.rowCol G?).plan M = ⟨w, .ok k⟩ := by
    rw [Reduction.plan_eq, hexec]
  rw [reduce_rowCol]
  refine Plan.solves_record _ hsteps (fun t s h => h.1) ?_ ?_
  · rw [hplan]
    exact congrArg _ hk
  · rw [hplan]
    exact hmatrix

end Method

/-! ## Free vertex elimination -/

/-- The ones of a permutation matrix. -/
theorem ParityMatrix.PlacesOnes.entry_iff {N : ParityMatrix} {output : List ℕ}
    (h : N.PlacesOnes output) (r c : ℕ) :
    N.entry r c = true ↔ output[c]? = some r := by
  by_cases hc : c < N.rows
  · have hlt : c < output.length := h.perm.length_eq ▸ hc
    rw [h.entry r c hc, decide_eq_true_iff, List.getD_eq_getElem _ _ hlt,
      List.getElem?_eq_getElem hlt, Option.some_inj, eq_comm]
  · have hge : output.length ≤ c := by
      rw [h.perm.length_eq]
      omega
    rw [entry_eq_false (by rw [h.square]; omega), List.getElem?_eq_none hge]
    simp

/-- A product with a permutation matrix takes its columns in another order. -/
theorem ParityMatrix.PlacesOnes.entry_mul {N C : ParityMatrix} {output : List ℕ}
    (h : N.PlacesOnes output) (hcols : C.cols = N.rows) (r : ℕ) {c : ℕ} (hc : c < N.rows) :
    (C.mul N).entry r c = C.entry r (output.getD c 0) := by
  apply bitValue_injective
  have hlt := h.perm.getD_lt hc
  rw [bitValue_entry_mul, Finset.sum_eq_single (output.getD c 0)]
  · rw [h.entry _ c hc, decide_eq_true rfl]
    exact mul_one _
  · intro k _ hk
    rw [h.entry k c hc, decide_eq_false hk]
    exact mul_zero _
  · intro hout
    exact absurd (Finset.mem_range.mpr (hcols ▸ hlt)) hout

/-- So the other factor is the product with its columns put back. -/
theorem ParityMatrix.PlacesOnes.eq_relabel {N C : ParityMatrix} {output : List ℕ}
    (h : N.PlacesOnes output) (hrows : C.rows = N.rows) (hcols : C.cols = N.rows)
    (hmul : C.mul N = M) :
    C = M.relabel (List.range N.rows) (Permutation.inverse output) := by
  subst hmul
  refine ext_entry rfl (hcols.trans h.square.symm) ?_
  intro r c hr hc
  have hr : r < N.rows := hrows ▸ hr
  have hc : c < N.rows := hcols ▸ hc
  have hinverse := h.perm.inverse.getD_lt hc
  rw [entry_relabel _ _ _ (by simpa [hrows] using hr) (by simpa [h.square] using hc),
    Permutation.getD_range hr, h.entry_mul hcols r hinverse, h.perm.getD_getD_inverse hc]

/-- Reading the result of a run as something else does not make it succeed. -/
theorem Run.map_ok {α β : Type} {f : α → β} {r : Run α} {b : β}
    (h : (r.map f).outcome = .ok b) : ∃ a, r.outcome = .ok a ∧ f a = b := by
  have h : r.outcome.map f = .ok b := h
  cases hr : r.outcome with
  | error e =>
    rw [hr] at h
    cases h
  | ok a =>
    rw [hr] at h
    exact ⟨a, rfl, Except.ok.inj h⟩

/-- Nor does changing its circuit. -/
theorem Run.mapCircuit_ok {α : Type} {f : α → Circuit → Except (Fault SynthesisError) Circuit}
    {r : Run α} {a : α} (h : (r.mapCircuit f).outcome = .ok a) : r.outcome = .ok a := by
  unfold Run.mapCircuit at h
  split at h
  · next b c hb _ =>
    split at h
    · exact h
    · cases h
  · exact h

/-- A run whose circuit could be changed. -/
theorem Run.mapCircuit_eq_of_ok {α : Type}
    {f : α → Circuit → Except (Fault SynthesisError) Circuit}
    {r : Run α} {a : α} {d : Circuit} (hd : r.circuit = some d)
    (h : (r.mapCircuit f).outcome = .ok a) :
    r.outcome = .ok a ∧ ∃ d', f a d = .ok d' ∧ r.mapCircuit f = { r with circuit := some d' } := by
  obtain ⟨matrix, circuit, events, outcome⟩ := r
  obtain rfl : circuit = some d := hd
  obtain rfl : outcome = .ok a := Run.mapCircuit_ok h
  cases hf : f a d with
  | error e =>
    simp only [Run.mapCircuit, hf] at h
    cases h
  | ok d' => exact ⟨rfl, d', rfl, by simp only [Run.mapCircuit, hf]⟩

/-- **A matrix reduced to a permutation matrix**: the run found the row of each column, and left a
circuit that undoes all but the permutation. -/
structure Run.Permutes (r : Run (List ℕ)) (M : ParityMatrix) (E : ℕ → ℕ → Prop) (output : List ℕ)
    (c : Circuit) : Prop where
  outcome_eq : r.outcome = .ok output
  circuit_eq : r.circuit = some c
  rows_eq : r.matrix.rows = M.rows
  placesOnes : r.matrix.PlacesOnes output
  wellFormed : c.WellFormed
  qubits_eq : c.qubits = M.rows
  layout_eq : c.layout = none
  parity_mul : c.parity.mul r.matrix = M
  allowed : ∀ g ∈ c.gates, E g.target g.control

namespace Run.Permutes

variable {r : Run (List ℕ)} {output : List ℕ} {c : Circuit}

/-- The output of a run that permutes is a permutation. -/
theorem perm (h : r.Permutes M E output c) : IsPermutation output M.rows :=
  h.rows_eq ▸ h.placesOnes.perm

/-- The circuit carries out the matrix with its columns put back. -/
theorem realises (h : r.Permutes M E output c) :
    c.Realises (M.relabel (List.range M.rows) (Permutation.inverse output)) E where
  wellFormed := h.wellFormed
  qubits_eq := h.qubits_eq
  parity_eq := by
    have hrows : c.parity.rows = r.matrix.rows := by rw [c.rows_parity, h.qubits_eq, h.rows_eq]
    have hcols : c.parity.cols = r.matrix.rows := by rw [c.cols_parity, h.qubits_eq, h.rows_eq]
    rw [h.layout_eq, ← h.rows_eq]
    exact h.placesOnes.eq_relabel hrows hcols h.parity_mul
  allowed := h.allowed

end Run.Permutes

namespace Method

variable {row : RowStrategy} {column : ColumnStrategy} {search : Option BestFirst}

/-- **Free vertex elimination that goes through** ends with a permutation matrix, whatever the
strategies. -/
theorem permutes_of_ok (hgraph : graphFor G? M.rows = .ok G) (hsize : G.size = M.rows)
    (hM : M.IsInvertible) {output : List ℕ}
    (h : (permute row column search G? M (some (Circuit.empty M.rows))).outcome = .ok output) :
    ∃ c, (permute row column search G? M (some (Circuit.empty M.rows))).Permutes M
      (Routed G? M.rows) output c := by
  rw [permute_eq_record] at h ⊢
  obtain ⟨hplan, _⟩ := Plan.eq_of_record_ok h
  have hyields : Reduction.Yields True (Reduction.permRowCol (freePair row column) search G?)
      (Work.start M) fun output w => w.matrix.PlacesOnes output :=
    Reduction.permRowCol_yields (absurd trivial) search hM hgraph hsize (absurd trivial)
  have hones := hyields.of_ok hplan
  have hsteps := Reduction.steps_permRowCol (freePair row column) search G? (Work.start M)
  obtain ⟨c, hrecord, hlayout, hqubits, hwell, hmul, hgates⟩ :=
    Plan.record_empty _ hsteps (fun t s h => h.1) hplan
  rw [hrecord]
  exact ⟨c, rfl, rfl, hsteps.rows_eq, hones, hwell, hqubits, hlayout, hmul, hgates⟩

/-- On a connected graph it goes through if the strategies guide. -/
theorem permute_exists_ok (hguides : (freePair row column).Guides G fun _ => True)
    (search : Option BestFirst) (hgraph : graphFor G? M.rows = .ok G) (hsize : G.size = M.rows)
    (hG : G.isConnected = true) (hM : M.IsInvertible) :
    ∃ output, (permute row column search G? M (some (Circuit.empty M.rows))).outcome =
      .ok output := by
  obtain ⟨output, hplan⟩ := (Reduction.permRowCol_yields (F := False) (w := Work.start M)
    (fun _ => hguides) search hM hgraph hsize fun _ => hG).exists_ok not_false
  have hsteps := Reduction.steps_permRowCol (freePair row column) search G? (Work.start M)
  obtain ⟨c, hrecord, _⟩ := Plan.record_empty _ hsteps (fun t s h => h.1) hplan
  refine ⟨output, ?_⟩
  rw [permute_eq_record, hrecord]

/-- **The layout of the columns** makes the circuit one for the matrix. -/
theorem permRowCol_solves {output : List ℕ} {c : Circuit} (hsquare : M.cols = M.rows)
    (h : (permute row column search G? M (some (Circuit.empty M.rows))).Permutes M E output c) :
    ((Method.permRowCol row column search).reduce G? M (some (Circuit.empty M.rows))).Solves M E
        { c with layout := some ⟨List.range M.rows, Permutation.inverse output⟩ } ∧
      ((Method.permRowCol row column search).reduce G? M (some (Circuit.empty M.rows))).matrix =
        (permute row column search G? M (some (Circuit.empty M.rows))).matrix := by
  have hattach : attachOutput output c =
      .ok { c with layout := some ⟨List.range M.rows, Permutation.inverse output⟩ } := by
    unfold attachOutput
    rw [h.perm.length_eq, Circuit.setLayout_eq]
    · rfl
    · exact h.qubits_eq ▸ isPermutation_range M.rows
    · exact h.qubits_eq ▸ h.perm.inverse
  have hmap : (permute row column search G? M (some (Circuit.empty M.rows))).mapCircuit
      attachOutput = { permute row column search G? M (some (Circuit.empty M.rows)) with
        circuit := some { c with
          layout := some ⟨List.range M.rows, Permutation.inverse output⟩ } } := by
    simp only [Run.mapCircuit, h.outcome_eq, h.circuit_eq, hattach]
  rw [reduce_permRowCol, hmap]
  refine ⟨⟨?_, rfl, ?_⟩, rfl⟩
  · change (permute row column search G? M (some (Circuit.empty M.rows))).outcome.map _ = _
    rw [h.outcome_eq]
    exact congrArg _ h.perm.length_eq
  · exact h.realises.place h.layout_eq hsquare (isPermutation_range M.rows) h.perm.inverse

end Method

end CnotSynthesis
