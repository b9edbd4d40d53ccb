import CnotSynthesis.Proofs.Elimination.Solving

/-! # Free vertex elimination under any strategies

The strategies that choose rows and columns are given from outside. If they choose among what they
are offered, the elimination goes through; whatever they choose, it ends with the permutation matrix
of its output or with a structural error.

* **`Reduction.FailsStructurally`** — the only errors are structural. It holds of the steps of a
  vertex elimination, and of **`bestFirst`** (**`bestFirst_failsStructurally`**).
* **`Run.LeavesPermutation r M G? output c`** — the run left the permutation matrix of `output` and
  the circuit `c` for the rest.
* **`Method.permRowCol_of_picks`** — strategies that choose among what they are offered.
* **`Method.permute_or_structural`** — strategies that choose anything. -/

namespace CnotSynthesis

open ParityMatrix

variable {α β : Type} {G : CouplingGraph} {G? : Option CouplingGraph} {M : ParityMatrix}

/-! ## Structural errors -/

/-- A step could not be carried out. -/
def SynthesisError.IsStructural (e : SynthesisError) : Prop := ∃ cause, e = .structural cause

namespace Reduction

/-- **A reduction whose only errors are structural.** -/
def FailsStructurally (r : Reduction α) : Prop :=
  ∀ w e w', r.exec w = (.error e, w') → e.IsStructural

/-- Done, without an error. -/
theorem failsStructurally_pure (a : α) : FailsStructurally (pure a) := by
  rintro _ _ _ ⟨⟩

/-- Looking at the matrix gives no error. -/
theorem failsStructurally_matrix : FailsStructurally matrix := by
  rintro _ _ _ ⟨⟩

/-- A milestone gives no error. -/
theorem failsStructurally_report (m : Milestone) : FailsStructurally (report m) := by
  rintro _ _ _ ⟨⟩

/-- A pass that always goes through does not fail. -/
theorem failsStructurally_of_exec {r : Reduction α} {a : α} {g : Work → Work}
    (hr : ∀ w, r.exec w = (.ok a, g w)) : FailsStructurally r := by
  intro w e w' h
  rw [hr w] at h
  cases h

/-- Failing for a structural cause. -/
theorem failsStructurally_fail (cause : StructuralCause) :
    FailsStructurally (fail cause : Reduction α) := by
  rintro _ _ _ ⟨⟩
  exact ⟨cause, rfl⟩

/-- A computation on the side with structural errors only. -/
theorem failsStructurally_lift {x : Except SynthesisError α}
    (h : ∀ e, x = .error e → e.IsStructural) : FailsStructurally (liftM x) := by
  intro w e w' he
  rw [exec_lift] at he
  exact h e (Prod.ext_iff.mp he).1

/-- An attempt fails for its cause, which is structural. -/
theorem failsStructurally_attempt (x : Except StructuralCause α) :
    FailsStructurally (attempt x) := by
  cases x with
  | error cause => exact failsStructurally_fail cause
  | ok a => exact failsStructurally_pure a

/-- **One reduction after the other** fails structurally if both do. -/
theorem FailsStructurally.bind {r : Reduction α} {f : α → Reduction β} (hr : FailsStructurally r)
    (hf : ∀ a, FailsStructurally (f a)) : FailsStructurally (r >>= f) := by
  intro w e w' h
  rw [Script.exec_bind] at h
  rcases hexec : r.exec w with ⟨_ | a, w₁⟩
  · rw [hexec] at h
    cases h
    exact hr _ _ _ hexec
  · rw [hexec] at h
    exact hf a _ _ _ h

/-! ## Steps of a vertex elimination -/

/-- Lower elimination fails only structurally. -/
theorem failsStructurally_lower (t : SteinerTree) (column : ℕ) :
    FailsStructurally (lower t column) := by
  refine (failsStructurally_of_exec (exec_raise t · column)).bind fun _ => ?_
  refine (failsStructurally_of_exec (exec_cancel t)).bind fun _ => ?_
  refine failsStructurally_matrix.bind fun M => ?_
  cases lowerFault? M t column with
  | some cause => exact failsStructurally_fail cause
  | none => exact failsStructurally_pure ()

/-- Clearing a column fails only structurally. -/
theorem failsStructurally_clearColumn (row column : ℕ) (rows : List ℕ) :
    FailsStructurally (clearColumn G row column rows) := by
  refine failsStructurally_matrix.bind fun M => ?_
  dsimp only
  generalize (if (M.colOnes column).contains row then M.colOnes column
    else M.colOnes column ++ [row]) = terminals
  split
  · exact failsStructurally_fail _
  · split
    · exact (failsStructurally_attempt _).bind fun t => failsStructurally_lower t column
    · split
      · exact failsStructurally_pure ()
      · exact failsStructurally_fail _

/-- Clearing a row fails only structurally. -/
theorem failsStructurally_clearRow (row : ℕ) (rows restColumns : List ℕ) :
    FailsStructurally (clearRow G row rows restColumns) := by
  refine failsStructurally_matrix.bind fun M => ?_
  split
  · exact failsStructurally_pure ()
  · refine (failsStructurally_attempt _).bind fun selected =>
      (failsStructurally_attempt _).bind fun t => ?_
    refine (failsStructurally_of_exec (exec_collect t · selected)).bind fun _ => ?_
    refine failsStructurally_matrix.bind fun M => ?_
    cases restColumns.find? (M.entry row) with
    | some c => exact failsStructurally_fail _
    | none => exact failsStructurally_pure ()

/-- Clearing a pair fails only structurally. -/
theorem failsStructurally_clearPair (row column : ℕ) (p : Remaining) :
    FailsStructurally (clearPair G row column p) :=
  (failsStructurally_clearColumn _ _ _).bind fun _ => failsStructurally_clearRow _ _ _

/-- Finishing fails only structurally. -/
theorem failsStructurally_finish (p : Remaining) : FailsStructurally (finish p) := by
  unfold finish
  split
  · refine failsStructurally_matrix.bind fun M => ?_
    split
    · exact (failsStructurally_report _).bind fun _ => failsStructurally_pure _
    · exact failsStructurally_fail _
  · exact failsStructurally_pure _

/-- Eliminating pair after pair fails only structurally. -/
theorem failsStructurally_eliminateFrom (choose : PairStrategy) (fuel : ℕ) :
    ∀ p, FailsStructurally (eliminateFrom G choose fuel p) := by
  induction fuel with
  | zero => exact failsStructurally_finish
  | succ fuel ih =>
    intro p
    unfold eliminateFrom
    split
    · exact failsStructurally_finish p
    · refine failsStructurally_matrix.bind fun M => ?_
      cases choose M p (G.removable p.rows) with
      | none => exact failsStructurally_fail _
      | some pair =>
        refine (failsStructurally_clearPair pair.1 pair.2 p).bind fun _ => ?_
        exact (failsStructurally_report _).bind fun _ => ih _

end Reduction

/-! ## Best first -/

variable {choose : PairStrategy} {e : SynthesisError}

/-- The circuit of a prospect has the qubits of the graph as wires, so it takes whatever the
reduction does. -/
theorem Prospect.child_failsStructurally {p : Prospect} (hwires : p.circuit.qubits = G.size)
    {number : ℕ} {pair : ℕ × ℕ} (h : p.child G number pair = .error e) : e.IsStructural := by
  obtain ⟨work, hexec⟩ := Prospect.child_error hwires h
  exact Reduction.failsStructurally_clearPair _ _ _ _ _ _ hexec

/-- Finishing a prospect fails only structurally. -/
theorem Prospect.settle_failsStructurally {p : Prospect} (hwires : p.circuit.qubits = G.size)
    (h : p.settle G choose = .error e) : e.IsStructural := by
  obtain ⟨work, hexec⟩ := Prospect.settle_error hwires h
  exact Reduction.failsStructurally_eliminateFrom _ _ _ _ _ _ hexec

/-- The offshoots of a prospect fail only structurally. -/
theorem offshoots_failsStructurally {p : Prospect} (hwires : p.circuit.qubits = G.size)
    (pairs : List (ℕ × ℕ)) :
    ∀ {number : ℕ}, offshoots G p number pairs = .error e → e.IsStructural := by
  induction pairs with
  | nil => rintro _ ⟨⟩
  | cons pair pairs ih =>
    intro number h
    unfold offshoots at h
    cases hchild : p.child G number pair with
    | error e' =>
      rw [hchild] at h
      cases h
      exact Prospect.child_failsStructurally hwires hchild
    | ok child =>
      rw [hchild] at h
      cases hrest : offshoots G p (number + 1) pairs with
      | error e' =>
        rw [hrest] at h
        cases h
        exact ih hrest
      | ok rest =>
        rw [hrest] at h
        cases h

/-- The circuits of the offshoots have the wires of the one they continue. -/
theorem offshoots_qubits {p : Prospect} (pairs : List (ℕ × ℕ)) :
    ∀ {number : ℕ} {children : List Prospect}, offshoots G p number pairs = .ok children →
      ∀ q ∈ children, q.circuit.qubits = p.circuit.qubits := by
  induction pairs with
  | nil =>
    rintro _ _ ⟨⟩
    simp
  | cons pair pairs ih =>
    intro number children h
    obtain ⟨child, rest, hchild, hrest, rfl⟩ := offshoots_cons_ok h
    obtain ⟨w, _, _, hcircuit, _⟩ := Prospect.child_ok hchild
    refine List.forall_mem_cons.mpr ⟨?_, ih hrest⟩
    rw [hcircuit]
    rfl

/-- A search fails only structurally, whatever waits. -/
theorem bestFirstFrom_failsStructurally (width budget : ℕ) :
    ∀ {made : ℕ} {waiting : List Prospect}, (∀ p ∈ waiting, p.circuit.qubits = G.size) →
      bestFirstFrom G choose width budget made waiting = .error e → e.IsStructural := by
  induction budget with
  | zero =>
    intro made waiting hwires h
    unfold bestFirstFrom at h
    split at h
    · cases h
      exact ⟨_, rfl⟩
    · next p hleast => exact Prospect.settle_failsStructurally (hwires p (leastBy_mem hleast)) h
  | succ budget ih =>
    intro made waiting hwires h
    unfold bestFirstFrom at h
    split at h
    -- running out of prospects is a structural error as well
    · cases h
      exact ⟨_, rfl⟩
    · next p hleast =>
      have hp : p.circuit.qubits = G.size := hwires p (leastBy_mem hleast)
      dsimp only at h
      split at h
      · exact Prospect.settle_failsStructurally hp h
      -- otherwise an offshoot fails, or the search goes on with one prospect of the budget less
      · cases hchildren : offshoots G p made
            (pairsTried G choose width p.matrix p.remaining) with
        | error e' =>
          rw [hchildren] at h
          cases h
          exact offshoots_failsStructurally hp _ hchildren
        | ok children =>
          rw [hchildren] at h
          refine ih ?_ h
          intro q hq
          rcases List.mem_append.mp hq with hq | hq
          · exact hwires q (List.mem_filter.mp hq).1
          · rw [offshoots_qubits _ hchildren q hq, hp]

/-- **Best-first elimination fails only structurally.** -/
theorem bestFirst_failsStructurally {settings : BestFirst} (hsize : G.size = M.rows)
    (h : bestFirst G choose settings M = .error e) : e.IsStructural := by
  refine bestFirstFrom_failsStructurally settings.width settings.budget ?_ h
  intro p hp
  rw [List.mem_singleton.mp hp]
  exact hsize.symm

/-- **Free vertex elimination of an invertible matrix fails only structurally.** -/
theorem Reduction.permRowCol_failsStructurally {search : Option BestFirst} {w w' : Work}
    (hM : w.matrix.IsInvertible) (hG : graphFor G? w.matrix.rows = .ok G)
    (h : (permRowCol choose search G?).exec w = (.error e, w')) : e.IsStructural := by
  unfold permRowCol at h
  rw [exec_checked hM hG] at h
  cases search with
  | none =>
    refine FailsStructurally.bind (failsStructurally_eliminateFrom _ _ _) (fun p => ?_) _ _ _ h
    exact failsStructurally_pure p.output
  | some settings =>
    rw [Script.exec_bind, exec_matrix] at h
    refine FailsStructurally.bind (failsStructurally_lift fun e he => ?_) (fun found => ?_) _ _ _ h
    · exact bestFirst_failsStructurally (graphFor_ok hG).1 he
    · refine (failsStructurally_of_exec (exec_addRows _)).bind fun _ => ?_
      exact (failsStructurally_of_exec (exec_reportPairs _)).bind fun _ => failsStructurally_pure _

/-! ## Any strategies -/

/-- **A run that left a permutation matrix** of as many rows as `M`: `output` has the row of each
column's one, the circuit with its columns taken in that order carries out `M`, and the graph, if
there is one, supports it. -/
structure Run.LeavesPermutation (r : Run (List ℕ)) (M : ParityMatrix) (G? : Option CouplingGraph)
    (output : List ℕ) (c : Circuit) : Prop where
  outcome_eq : r.outcome = .ok output
  perm : IsPermutation output M.rows
  rows_eq : r.matrix.rows = M.rows
  cols_eq : r.matrix.cols = M.rows
  entry_iff : ∀ i j : ℕ, r.matrix.entry i j = true ↔ output[j]? = some i
  circuit_eq : r.circuit = some c
  relabel_eq : c.parity.relabel? (List.range M.rows) output = .ok M
  parityMap_eq : requireShape M.rows M.rows = .ok () → c.parityMap = .ok c.parity
  supports : ∀ G ∈ G?, G.supports c = true

/-- A circuit times a permutation matrix is the circuit with its columns taken in that order. -/
theorem ParityMatrix.PlacesOnes.mul_eq_relabel {N C : ParityMatrix} {output : List ℕ}
    (h : N.PlacesOnes output) (hrows : C.rows = N.rows) (hcols : C.cols = N.rows) :
    C.mul N = C.relabel (List.range N.rows) output := by
  refine ext_entry rfl (h.square.trans hcols.symm) ?_
  intro r c hr hc
  have hr : r < N.rows := hrows ▸ hr
  have hc : c < N.rows := h.square ▸ hc
  rw [h.entry_mul hcols r hc, entry_relabel _ _ _ (hrows ▸ hr) (hcols ▸ hc),
    Permutation.getD_range hr]

/-- A run that permutes leaves its permutation matrix. -/
theorem Run.Permutes.leavesPermutation {r : Run (List ℕ)} {output : List ℕ} {c : Circuit}
    (h : r.Permutes M (Routed G? M.rows) output c) (hG : ∀ G ∈ G?, G.size = M.rows) :
    r.LeavesPermutation M G? output c where
  outcome_eq := h.outcome_eq
  perm := h.perm
  rows_eq := h.rows_eq
  cols_eq := h.placesOnes.square.trans h.rows_eq
  entry_iff := h.placesOnes.entry_iff
  circuit_eq := h.circuit_eq
  relabel_eq := by
    have hrows : c.parity.rows = M.rows := by rw [c.rows_parity, h.qubits_eq]
    have hcols : c.parity.cols = M.rows := by rw [c.cols_parity, h.qubits_eq]
    rw [relabel?_eq (hrows ▸ isPermutation_range M.rows) (hcols ▸ h.perm), ← h.rows_eq,
      ← h.placesOnes.mul_eq_relabel (hrows.trans h.rows_eq.symm) (hcols.trans h.rows_eq.symm),
      h.parity_mul]
  parityMap_eq := by
    intro hroom
    rw [h.wellFormed.parityMap_eq, h.qubits_eq, hroom]
    rfl
  supports := by
    intro G hG?
    have hrealises := h.realises
    rw [show G? = some G from hG?] at hrealises
    exact CouplingGraph.supports_of_realises hrealises (hG G hG?)

namespace Method

variable {row : RowStrategy} {column : ColumnStrategy}

/-- **Free vertex elimination with strategies that choose among what they are offered** succeeds on
every invertible matrix and every connected graph, greedy or best first: a candidate row, and a
remaining column, even one in which the row has no one, at least when the row holds a one in one of
them. It leaves the permutation matrix of its
output and a circuit that carries out the rest; with the layout attached, the circuit carries out
the matrix as the layout relabels it. -/
theorem permRowCol_of_picks
    (hrow : ∀ N candidates columns, candidates ≠ [] →
      ∃ r ∈ candidates, row N candidates columns = some r)
    (hcolumn : ∀ N r rows columns, (∃ c ∈ columns, N.entry r c = true) →
      ∃ c ∈ columns, column N r rows columns = some c)
    (search : Option BestFirst) (hM : M.IsInvertible)
    (hG : ∀ G ∈ G?, G.size = M.rows ∧ G.isConnected = true) :
    let reduced := (Method.permRowCol row column search).reduce G? M (some (Circuit.empty M.rows))
    ∃ output c d l,
      (permute row column search G? M (some (Circuit.empty M.rows))).LeavesPermutation M G?
        output c ∧
      reduced.outcome = .ok M.rows ∧ reduced.circuit = some d ∧ d.gates = c.gates ∧
      d.layout = some l ∧ IsPermutation l.rowPerm M.rows ∧ IsPermutation l.colPerm M.rows ∧
      M.relabel? l.rowPerm l.colPerm = .ok d.parity ∧
      (requireShape M.rows M.rows = .ok () → d.parityMap = .ok d.parity) := by
  intro reduced
  obtain ⟨G, hgraph, hsuits⟩ : ∃ G, graphFor G? M.rows = .ok G ∧ G.Suits .byGraph M.rows :=
    graphFor_suits fun G h => CouplingGraph.suits_byGraph (hG G h).1 (hG G h).2
  obtain ⟨output, hok⟩ := permute_exists_ok (guides_of_picks G hrow hcolumn) search hgraph
    hsuits.size_eq hsuits.connected hM
  obtain ⟨c, hpermutes⟩ := permutes_of_ok hgraph hsuits.size_eq hM hok
  obtain ⟨hsolves, _⟩ := permRowCol_solves hM.cols_eq hpermutes
  have hrange := isPermutation_range M.rows
  have hinverse := hpermutes.perm.inverse
  refine ⟨output, c, _, _, hpermutes.leavesPermutation fun G h => (hG G h).1, hsolves.outcome_eq,
    hsolves.circuit_eq, rfl, rfl, hrange, hinverse, ?_, ?_⟩
  · rw [relabel?_eq hrange (hM.cols_eq ▸ hinverse), hsolves.realises.parity_eq]
    rfl
  · intro hroom
    rw [hsolves.realises.parityMap_eq hroom, hsolves.realises.parity_eq]

/-- The last candidate and the first column left, on four qubits around qubit 1. -/
theorem permRowCol_of_picks_star :
    let G := CouplingGraph.assemble "star" 4 [1, 0, 2, 3] [(0, 1), (0, 2), (0, 3)] (by decide)
      (by simp [IsCoupling])
    let M := (((identity 4).addRow 0 2).addRow 2 3).addRow 3 0
    let run := permute (fun _ candidates _ => candidates.getLast?)
      (fun _ _ _ columns => columns.head?) (some ⟨2, 3⟩) (some G) M (some (Circuit.empty 4))
    G.isConnected = true ∧ M.IsInvertible ∧
      ∃ output c, run.LeavesPermutation M (some G) output c := by
  intro G M run
  have hG : G.isConnected = true := by decide
  have hM : M.IsInvertible := isInvertible_iff.mpr ⟨by decide, by decide⟩
  have hgraph : ∀ H ∈ some G, H.size = M.rows ∧ H.isConnected = true := by
    rintro _ ⟨⟩
    exact ⟨rfl, hG⟩
  obtain ⟨output, c, _, _, hleaves, _⟩ := permRowCol_of_picks
    (fun _ candidates _ hne => ⟨_, List.getLast_mem hne, List.getLast?_eq_some_getLast hne⟩)
    (fun _ _ _ columns ⟨_, hmem, _⟩ =>
      ⟨_, List.head_mem (List.ne_nil_of_mem hmem), List.head?_eq_some_head _⟩)
    (some ⟨2, 3⟩) hM hgraph
  exact ⟨hG, hM, output, c, hleaves⟩

/-- A fresh circuit takes all row additions, so the error of a run is that of its plan. -/
theorem permute_error {search : Option BestFirst} {fault : Fault SynthesisError}
    (h : (permute row column search G? M (some (Circuit.empty M.rows))).outcome = .error fault) :
    ∃ e w, (Reduction.permRowCol (freePair row column) search G?).exec (Work.start M) =
      (.error e, w) ∧ fault = .refused e := by
  rw [permute_eq row column search (by simp [Circuit.empty]), Reduction.plan_eq] at h
  rcases hexec : (Reduction.permRowCol (freePair row column) search G?).exec (Work.start M) with
    ⟨e | output, w⟩
  · rw [hexec] at h
    cases h
    exact ⟨e, w, rfl, rfl⟩
  · rw [hexec] at h
    cases h

/-- **Free vertex elimination reports success only if it is right**, whatever the strategies answer:
nothing, a row or a column set aside before, or a row that cuts the others apart. An invertible
matrix on a graph of its size, greedy or best first, ends with the permutation matrix of the output
and a circuit for the rest, or with a structural error. -/
theorem permute_or_structural (row : RowStrategy) (column : ColumnStrategy)
    (search : Option BestFirst) (hM : M.IsInvertible) (hG : ∀ G ∈ G?, G.size = M.rows) :
    let run := permute row column search G? M (some (Circuit.empty M.rows))
    (∃ output c, run.LeavesPermutation M G? output c) ∨
      ∃ cause, run.outcome = .error (.refused (.structural cause)) := by
  intro run
  obtain ⟨G, hgraph, hsize, _⟩ := graphFor_eq hG
  cases hrun : run.outcome with
  | ok output =>
    obtain ⟨c, hpermutes⟩ := permutes_of_ok hgraph hsize hM hrun
    exact .inl ⟨output, c, hpermutes.leavesPermutation hG⟩
  | error fault =>
    obtain ⟨e, w, hplan, rfl⟩ := permute_error hrun
    obtain ⟨cause, rfl⟩ :=
      Reduction.permRowCol_failsStructurally (w := Work.start M) hM hgraph hplan
    exact .inr ⟨cause, rfl⟩

/-- Row 0 and column 0 again and again, also when they are gone. -/
theorem permute_or_structural_stubborn :
    let M := ((identity 3).addRow 0 2).addRow 1 0
    let run := permute (fun _ _ _ => some 0) (fun _ _ _ _ => some 0) none none M
      (some (Circuit.empty 3))
    M.IsInvertible ∧ ∃ cause, run.outcome = .error (.refused (.structural cause)) := by
  intro M run
  have hM : M.IsInvertible := isInvertible_iff.mpr ⟨by decide, by decide⟩
  have hgraph : ∀ G ∈ (none : Option CouplingGraph), G.size = M.rows := nofun
  have hfails : run.outcome.toOption = none := by decide
  refine ⟨hM, ?_⟩
  rcases permute_or_structural (fun _ _ _ => some 0) (fun _ _ _ _ => some 0) none hM hgraph with
    ⟨output, c, hleaves⟩ | hstructural
  · rw [show run.outcome = .ok output from hleaves.outcome_eq] at hfails
    cases hfails
  · exact hstructural

end Method

end CnotSynthesis
