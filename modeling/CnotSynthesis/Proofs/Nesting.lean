import CnotSynthesis.Proofs.Method

/-! # Searches around searches

A placement search hands the relabelled matrix to its inner method, which may be a search again and
leaves a layout of its own. Each search composes its placements with the layout that it finds, so
however deep the nest, the layout says how the circuit carries out the matrix.

* **`Method.innermost`** — the elimination in the middle of a nest.
* **`Reducer.Sound`** — a reduction whose success can be trusted.
* **`Method.sound_of_innermost`** — a nest is as sound as the elimination in its middle.
* **`Method.reduce_of_ok`** — what a nest that goes through leaves. -/

namespace CnotSynthesis

open ParityMatrix

variable {G? : Option CouplingGraph} {M : ParityMatrix} {E : ℕ → ℕ → Prop} {n : ℕ}

/-- **A reduction whose success can be trusted**: an invertible matrix of `n` rows for which it goes
through is solved. -/
def Reducer.Sound (reduce : Reducer) (G? : Option CouplingGraph) (n : ℕ) (E : ℕ → ℕ → Prop) :
    Prop :=
  ∀ M : ParityMatrix, M.rows = n → M.IsInvertible →
    ∀ k, (reduce G? M (some (Circuit.empty n))).outcome = .ok k →
      ∃ c, (reduce G? M (some (Circuit.empty n))).Solves M E c

/-- A reducer that solves every matrix is sound. -/
theorem Reducer.Solves.sound {reduce : Reducer} (h : reduce.Solves G? n E) :
    reduce.Sound G? n E := by
  intro M hrows hM k _
  obtain ⟨c, hsolved, _⟩ := h M hrows hM
  exact ⟨c, hsolved⟩

namespace Method

/-- The elimination in the middle of a nest of searches. -/
def innermost : Method → Method
  | .genetic base _ => base.innermost
  | .swarm base _ => base.innermost
  | m => m

/-! ## Eliminations -/

/-- Steiner elimination. With pivots by row number it need not go through on every connected
graph. -/
theorem sound_steiner (order : PivotOrder)
    (hG : ∀ G ∈ G?, G.size = n ∧ G.isConnected = true) :
    (Method.steiner true order).reduce.Sound G? n (Routed G? n) := by
  rintro M rfl hM k hk
  obtain ⟨G, hgraph, hsuits⟩ : ∃ G, graphFor G? M.rows = .ok G ∧ G.Suits .byGraph M.rows :=
    graphFor_suits fun G h => CouplingGraph.suits_byGraph (hG G h).1 (hG G h).2
  rw [reduce_steiner] at hk
  obtain ⟨hplan, _⟩ := Plan.eq_of_record_ok hk
  rw [plan_steinerReduction_of_graphFor true order hgraph] at hplan
  obtain ⟨c, hsolved, _⟩ :=
    steiner_solves_of_ok hgraph hsuits.size_eq hsuits.connected hM hplan
  exact ⟨c, hsolved⟩

/-- Free vertex elimination, whatever its strategies. -/
theorem sound_permRowCol (row : RowStrategy) (column : ColumnStrategy) (search : Option BestFirst)
    (hG : ∀ G ∈ G?, G.size = n) :
    (Method.permRowCol row column search).reduce.Sound G? n (Routed G? n) := by
  rintro M rfl hM k hk
  obtain ⟨G, hgraph, hsize, _⟩ := graphFor_eq hG
  obtain ⟨output, hmapped, _⟩ := Run.map_ok hk
  obtain ⟨c, hpermutes⟩ := permutes_of_ok hgraph hsize hM (Run.mapCircuit_ok hmapped)
  exact ⟨_, (permRowCol_solves hM.cols_eq hpermutes).1⟩

/-! ## Searches -/

/-- **Relabel, reduce, attach**: success comes from inside, and the placements are composed with the
layout found there. -/
theorem reduceRelabelled_of_ok {reduce : Reducer} (hsound : reduce.Sound G? M.rows E)
    (hM : M.IsInvertible) {rows cols : List ℕ} {events : List Event} {k : ℕ}
    (hk : (reduceRelabelled reduce G? M (some (Circuit.empty M.rows)) rows cols events).outcome =
      .ok k) :
    ∃ c, (reduceRelabelled reduce G? M (some (Circuit.empty M.rows)) rows cols events).Solves
      M E c := by
  obtain ⟨N, hrelabel, _, hinner⟩ := reduceRelabelled_of_outcome hk
  -- only permutations are accepted, wherever the search got them from
  obtain ⟨hrows, hcols, rfl⟩ := relabel?_ok hrelabel
  rw [hM.cols_eq] at hcols
  obtain ⟨c, hsolved⟩ := hsound (M.relabel rows cols) rfl (hM.relabel hrows hcols) k hinner
  obtain ⟨d, hd, _⟩ := reduceRelabelled_solves hM hrows hcols events hsolved
  exact ⟨d, hd⟩

/-- A genetic search is as sound as what it wraps. -/
theorem sound_genetic {base : Method} {s : SearchSettings} (h : base.reduce.Sound G? n E) :
    (Method.genetic base s).reduce.Sound G? n E := by
  rintro M rfl hM k hk
  cases hplacement : geneticPlacement base.reduce s G? M with
  | error breach =>
    rw [reduce_genetic_of_error _ hplacement] at hk
    cases hk
  | ok found =>
    rw [reduce_genetic_of_ok _ hplacement] at hk ⊢
    exact reduceRelabelled_of_ok h hM hk

/-- A swarm search is as sound as what it wraps. -/
theorem sound_swarm {base : Method} {s : SearchSettings} (h : base.reduce.Sound G? n E) :
    (Method.swarm base s).reduce.Sound G? n E := by
  rintro M rfl hM k hk
  rcases hplacement : swarmPlacement base.reduce s G? M with ⟨e | solution, events⟩
  · rw [reduce_swarm_of_error _ hplacement] at hk
    cases hk
  · rw [reduce_swarm_of_ok _ hplacement] at hk ⊢
    exact reduceRelabelled_of_ok h hM hk

/-- **A nest is as sound as the elimination in its middle.** -/
theorem sound_of_innermost (m : Method) (h : m.innermost.reduce.Sound G? n E) :
    m.reduce.Sound G? n E := by
  -- an elimination is its own middle, and a search has the middle of what it wraps
  induction m with
  | gauss full => exact h
  | steiner full order => exact h
  | rowCol => exact h
  | permRowCol row column search => exact h
  | genetic base s ih => exact sound_genetic (ih h)
  | swarm base s ih => exact sound_swarm (ih h)

/-- **The eliminations that a nest is built around** are sound on a connected graph or none, and all
but Gaussian elimination keep to the graph. -/
theorem sound_innermost (m : Method) (hgauss : m.innermost ≠ .gauss false)
    (hsteiner : ∀ order, m.innermost ≠ .steiner false order)
    (hG : ∀ G ∈ G?, G.size = n ∧ G.isConnected = true) :
    ∃ E, m.innermost.reduce.Sound G? n E ∧
      (m.innermost ≠ .gauss true → E = Routed G? n) := by
  induction m with
  | gauss full =>
    cases full with
    | false => exact absurd rfl hgauss
    | true => exact ⟨_, (solves_gauss G? n).sound, absurd rfl⟩
  | steiner full order =>
    cases full with
    | false => exact absurd rfl (hsteiner order)
    | true => exact ⟨_, sound_steiner order hG, fun _ => rfl⟩
  | rowCol =>
    have hsuits : ∀ G ∈ G?, G.Suits .byGraph n := fun G h =>
      CouplingGraph.suits_byGraph (hG G h).1 (hG G h).2
    exact ⟨_, (solves_rowCol hsuits).sound, fun _ => rfl⟩
  | permRowCol row column search =>
    exact ⟨_, sound_permRowCol row column search fun G h => (hG G h).1, fun _ => rfl⟩
  | genetic base s ih => exact ih hgauss hsteiner
  | swarm base s ih => exact ih hgauss hsteiner

/-- **What a nest of searches leaves** around an elimination that goes down and up again, on a
connected graph or none, if it goes through: its result is the number of rows, the layout, trivial
if there is none, is made of two permutations, and the circuit carries out the matrix relabelled by
them. Around all but Gaussian elimination the graph supports the circuit. -/
theorem reduce_of_ok (m : Method) (hgauss : m.innermost ≠ .gauss false)
    (hsteiner : ∀ order, m.innermost ≠ .steiner false order) (hM : M.IsInvertible)
    (hG : ∀ G ∈ G?, G.size = M.rows ∧ G.isConnected = true) {k : ℕ}
    (hk : (m.reduce G? M (some (Circuit.empty M.rows))).outcome = .ok k) :
    k = M.rows ∧ ∃ c, (m.reduce G? M (some (Circuit.empty M.rows))).circuit = some c ∧
      let l := c.layout.getD (Layout.identity M.rows)
      IsPermutation l.rowPerm M.rows ∧ IsPermutation l.colPerm M.rows ∧
      M.relabel? l.rowPerm l.colPerm = .ok c.parity ∧
      (requireShape M.rows M.rows = .ok () → c.parityMap = .ok c.parity) ∧
      (m.innermost ≠ .gauss true → ∀ G ∈ G?, G.supports c = true) := by
  obtain ⟨E, hsound, hE⟩ := sound_innermost m hgauss hsteiner hG
  obtain ⟨c, hsolved⟩ := sound_of_innermost m hsound M rfl hM k hk
  have hrealises := hsolved.realises
  obtain ⟨hrow, hcol⟩ := hrealises.isPermutation_layout
  have hrank : k = M.rows := by
    rw [hsolved.outcome_eq] at hk
    exact (Except.ok.inj hk).symm
  refine ⟨hrank, c, hsolved.circuit_eq, hrow, hcol, ?_, ?_, ?_⟩
  · rw [relabel?_eq hrow (hM.cols_eq ▸ hcol), hrealises.parity_eq, laidOut_eq hM.cols_eq]
  · intro hroom
    rw [hrealises.parityMap_eq hroom, hrealises.parity_eq]
  · intro hrouted G hG?
    rw [hE hrouted, show G? = some G from hG?] at hrealises
    exact CouplingGraph.supports_of_realises hrealises (hG G hG?).1

/-- A genetic search around a swarm search around free vertex elimination, on three qubits in a
line: the rows go round and two of the columns change places. -/
theorem reduce_of_ok_line :
    let G := CouplingGraph.assemble "line" 3 [0, 1, 2] [(0, 1), (1, 2)] (by decide)
      (by simp [IsCoupling])
    let M := ((identity 3).addRow 0 2).addRow 2 0
    let inner : SearchSettings :=
      ⟨.combined, ⟨1, 0.8, 0.2, 0, none⟩, ⟨1, 0, 0.4, 0.3, 0.2⟩, 0,
        fun _ => ⟨Dice.ofWords, fun _ => [0], 0, []⟩⟩
    let outer : SearchSettings := { inner with genetic := ⟨2, 0.8, 0.2, 0, none⟩ }
    let m : Method := .genetic (.swarm (.permRowCol lightestRow lightestColumn none) inner) outer
    let run := m.reduce (some G) M (some (Circuit.empty 3))
    G.isConnected = true ∧ M.IsInvertible ∧ run.outcome = .ok 3 ∧
      ∃ c, run.circuit = some c ∧ c.layout = some ⟨[1, 2, 0], [1, 0, 2]⟩ ∧
        M.relabel? [1, 2, 0] [1, 0, 2] = .ok c.parity ∧ G.supports c = true := by
  intro G M inner outer m run
  have hG : G.isConnected = true := by decide
  have hM : M.IsInvertible := isInvertible_iff.mpr ⟨by decide, by decide⟩
  have hgraph : ∀ H ∈ some G, H.size = M.rows ∧ H.isConnected = true := by
    rintro _ ⟨⟩
    exact ⟨rfl, hG⟩
  -- errors have no decidable equality, so the result is read without them
  have hresult : run.outcome.toOption = some 3 := by decide +kernel
  have hlayout : run.circuit.bind Circuit.layout = some ⟨[1, 2, 0], [1, 0, 2]⟩ := by decide +kernel
  have hk : run.outcome = .ok 3 := by
    cases h : run.outcome with
    | error e =>
      rw [h] at hresult
      cases hresult
    | ok k =>
      rw [h] at hresult
      rw [Option.some.inj hresult]
  obtain ⟨_, c, hc, _, _, hparity, _, hsupports⟩ :=
    reduce_of_ok m Method.noConfusion (fun _ => Method.noConfusion) hM hgraph hk
  rw [show run.circuit = some c from hc, Option.bind_some] at hlayout
  rw [hlayout] at hparity
  exact ⟨hG, hM, hk, c, hc, hlayout, hparity, hsupports Method.noConfusion G rfl⟩

end Method

end CnotSynthesis
