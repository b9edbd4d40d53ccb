import CnotSynthesis.Proofs.Elimination.Strategies
import CnotSynthesis.Proofs.Placement.EntryLayouts
import CnotSynthesis.Proofs.Synthesis.TransposeTrial

/-! # What a synthesis leaves of its matrix

A synthesis that succeeds has split its matrix into a circuit and a remainder, also where the matrix
is singular or no square, where it was reduced downwards only, and where the circuit was made for
the transpose. Placements that were searched for stand in the layout, and the matrix relabelled by
them is the one that was split.

* **`ParityMatrix.permutation?_eq_some_iff`** — the permutation that is read off a remainder;
  **`ParityMatrix.exists_placesOnes_iff`** — there is one exactly if every row and every column
  holds one one.
* **`Outcome.Splits o N`** — the circuit of `o` times its remainder is `N`.
* **`Setup.Produces.splits`**, **`Setup.Produces.splits_placed`**, **`Setup.keepCheaper_splits`** —
  eliminations, placement searches and the trial of the transpose.
* **`Setup.run_splits`** — every synthesis. -/

namespace CnotSynthesis

open ParityMatrix

/-! ## Permutation matrices -/

namespace ParityMatrix

variable {N : ParityMatrix} {p : List ℕ}

/-- **One one in every row and in every column** of a square matrix. -/
structure OnePerLine (N : ParityMatrix) : Prop where
  square : N.cols = N.rows
  row : ∀ r < N.rows, ∃! c, N.entry r c = true
  column : ∀ c < N.cols, ∃! r, N.entry r c = true

/-- A permutation was read off a square matrix, column by column. -/
theorem permutation?_ok (h : N.permutation? = some p) :
    N.cols = N.rows ∧ p.Nodup ∧ p.length = N.cols ∧
      ∀ c, c < N.cols → N.colOnes c = [p.getD c 0] := by
  unfold permutation? at h
  cases hsquare : N.isSquare with
  | false =>
    rw [hsquare] at h
    cases h
  | true =>
    rw [hsquare] at h
    obtain ⟨q, hq, h⟩ := Option.bind_eq_some_iff.mp h
    split at h
    · next hnodup =>
      obtain rfl : q = p := Option.some.inj h
      have hmap := mapM_eq_some_iff.mp hq
      have hlength : q.length = N.cols := by simpa using (congrArg List.length hmap).symm
      refine ⟨(beq_iff_eq.mp hsquare).symm, hnodup, hlength, fun c hc => ?_⟩
      have hget := congrArg (·[c]?) hmap
      rw [List.getElem?_map, List.getElem?_map, List.getElem?_range hc,
        List.getElem?_eq_getElem (hlength ▸ hc)] at hget
      rw [List.getD_eq_getElem _ _ (hlength ▸ hc)]
      replace hget := Option.some.inj hget
      dsimp only at hget
      split at hget
      · next row hones =>
        rw [hones, Option.some.inj hget]
      · cases hget
    · cases h

/-- **The permutation read off a matrix** places its ones. -/
theorem permutation?_eq_some_iff : N.permutation? = some p ↔ N.PlacesOnes p := by
  refine ⟨fun h => ?_, PlacesOnes.permutation?_eq⟩
  obtain ⟨hsquare, hnodup, hlength, hones⟩ := permutation?_ok h
  have hentry : ∀ r c, c < N.cols → (N.entry r c = true ↔ r = p.getD c 0) := by
    intro r c hc
    rw [← mem_colOnes, hones c hc, List.mem_singleton]
  refine ⟨⟨hlength.trans hsquare, fun q hq => ?_, hnodup⟩, hsquare, fun r c hc => ?_⟩
  · obtain ⟨c, hc, rfl⟩ := List.mem_iff_getElem.mp hq
    rw [← List.getD_eq_getElem _ 0 hc]
    exact (lt_of_entry ((hentry _ c (hlength ▸ hc)).mpr rfl)).1
  · rw [Bool.eq_iff_iff, hentry r c (hsquare ▸ hc), decide_eq_true_iff]

/-- **Permutation matrices** are the square matrices with one one in every row and every column. -/
theorem exists_placesOnes_iff : (∃ p, N.PlacesOnes p) ↔ N.OnePerLine := by
  constructor
  · rintro ⟨p, h⟩
    refine ⟨h.square, fun r hr => ?_, fun c hc => ?_⟩
    · obtain ⟨c, hc, rfl⟩ := List.mem_iff_getElem.mp (h.perm.mem_iff.mpr hr)
      refine ⟨c, (h.entry_iff _ c).mpr (List.getElem?_eq_getElem hc), fun d hd => ?_⟩
      obtain ⟨hd, heq⟩ := List.getElem?_eq_some_iff.mp ((h.entry_iff _ d).mp hd)
      exact h.perm.nodup.getElem_inj_iff.mp heq
    · have hc : c < p.length := by rwa [h.perm.length_eq, ← h.square]
      refine ⟨p[c], (h.entry_iff _ c).mpr (List.getElem?_eq_getElem hc), fun r hr => ?_⟩
      have hget := (List.getElem?_eq_getElem hc).symm.trans ((h.entry_iff r c).mp hr)
      exact (Option.some.inj hget).symm
  · intro h
    choose! row hrow hunique using h.column
    refine ⟨(List.range N.cols).map row, ⟨by simp [h.square], ?_, ?_⟩, h.square, ?_⟩
    · intro q hq
      obtain ⟨c, hc, rfl⟩ := List.mem_map.mp hq
      exact (lt_of_entry (hrow c (List.mem_range.mp hc))).1
    · -- two columns with their ones in one row are the same
      refine List.nodup_range.map_on fun c hc d hd heq => ?_
      have hc := hrow c (List.mem_range.mp hc)
      have hd := hrow d (List.mem_range.mp hd)
      rw [heq] at hc
      exact (h.row _ (lt_of_entry hd).1).unique hc hd
    · intro r c hc
      have hc : c < N.cols := h.square ▸ hc
      have hget : ((List.range N.cols).map row).getD c 0 = row c := by simp [hc]
      rw [hget, Bool.eq_iff_iff, decide_eq_true_iff]
      exact ⟨hunique c hc r, fun heq => heq ▸ hrow c hc⟩

end ParityMatrix

namespace Synthesis

/-! ## Circuit and remainder -/

/-- **A matrix split in two**: the circuit times what is left. -/
structure Outcome.Splits (o : Outcome) (N : ParityMatrix) : Prop where
  wellFormed : o.circuit.WellFormed
  qubits_eq : o.circuit.qubits = N.rows
  rows_eq : o.matrix.rows = N.rows
  parity_mul : o.circuit.parity.mul o.matrix = N

namespace Outcome.Splits

variable {o : Outcome} {N : ParityMatrix}

/-- What is left has as many columns. -/
theorem cols_eq (h : o.Splits N) : o.matrix.cols = N.cols := by
  rw [← h.parity_mul]
  rfl

/-- The product can be made, if the matrices can be held. -/
theorem mul?_eq (h : o.Splits N) (hroom : requireShape N.rows N.rows = .ok ())
    (hfits : requireShape N.rows N.cols = .ok ()) :
    ∃ P, o.circuit.parityMap = .ok P ∧ P.mul? o.matrix = .ok N := by
  refine ⟨o.circuit.parity, ?_, ?_⟩
  · rw [h.wellFormed.parityMap_eq, h.qubits_eq, hroom]
    rfl
  · unfold ParityMatrix.mul?
    rw [if_pos (by rw [Circuit.cols_parity, h.qubits_eq, h.rows_eq]), Circuit.rows_parity,
      h.qubits_eq, h.cols_eq, hfits, ← h.parity_mul]
    rfl

/-- **A remainder that is a permutation matrix** relabels the columns of the circuit. -/
theorem relabel?_eq (h : o.Splits N) {p : List ℕ} (hp : o.matrix.PlacesOnes p) :
    o.circuit.parity.relabel? (List.range N.rows) p = .ok N := by
  have hrows : o.circuit.parity.rows = N.rows := o.circuit.rows_parity.trans h.qubits_eq
  have hcols : o.circuit.parity.cols = N.rows := o.circuit.cols_parity.trans h.qubits_eq
  have hmul := hp.mul_eq_relabel (hrows.trans h.rows_eq.symm) (hcols.trans h.rows_eq.symm)
  rw [h.parity_mul, h.rows_eq] at hmul
  rw [ParityMatrix.relabel?_eq (hrows ▸ isPermutation_range _) (hcols ▸ h.rows_eq ▸ hp.perm),
    ← hmul]

end Outcome.Splits

namespace Setup

open Chain

variable {s : Setup} {G? : Option CouplingGraph} {M : ParityMatrix} {o direct transposed : Outcome}

/-- **The method of a mode**: an elimination, or a placement search for one by rows. -/
theorem method_kind (s : Setup) :
    (s.settings.mode.searchesPlacements = false ∧ s.method.IsElimination) ∨
      (s.settings.mode.searchesPlacements = true ∧ s.settings.mode ≠ .permRowCol ∧
        s.method.Searches s.settings.baseMethod) := by
  unfold method Settings.method Settings.baseMethod
  cases s.settings.mode with
  | gauss | steiner | rowCol | permRowCol => exact .inl ⟨rfl, trivial⟩
  | geneticGauss | geneticSteiner => exact .inr ⟨rfl, by decide, .genetic _ _⟩
  | swarmGauss | swarmSteiner => exact .inr ⟨rfl, by decide, .swarm _ _⟩

/-- **An elimination that goes through** splits its matrix. -/
theorem Produces.splits (h : s.Produces G? M o) (hmethod : s.method.IsElimination) :
    o.Splits M := by
  obtain ⟨events, htranscribes⟩ := Method.reduce_transcribes hmethod G? M
  have hrun : (s.elimination G? M).Transcribes M events (some (Circuit.empty M.rows)) :=
    htranscribes _
  have hsome : (s.elimination G? M).circuit = some o.circuit := by
    have hcircuit := hrun.circuit
    have hgetD := h.circuit_eq
    cases hd : (s.elimination G? M).circuit with
    | none =>
      rw [hd] at hcircuit
      cases hcircuit
    | some d =>
      rw [hd] at hgetD
      rw [← hgetD]
      rfl
  obtain ⟨hwell, hqubits, hmul⟩ := hrun.parity_mul rfl hsome (Circuit.wellFormed_empty _) rfl
  refine ⟨hwell, hqubits, ?_, ?_⟩
  · rw [← h.matrix_eq, hrun.matrix, rows_addRows]
  · rw [← h.matrix_eq, hmul]
    exact identity_mul rfl

/-- **A placement search that goes through** splits the matrix relabelled by its layout. -/
theorem Produces.splits_placed (h : s.Produces G? M o) (hmode : s.settings.mode ≠ .permRowCol)
    (hmethod : s.method.Searches s.settings.baseMethod) :
    ∃ l N, o.circuit.layout = some l ∧ M.relabel? l.rowPerm l.colPerm = .ok N ∧ o.Splits N := by
  have hk : (s.method.reduce G? M (some (Circuit.empty M.rows))).outcome = _ := h.outcome_eq
  have hcircuit := h.circuit_eq
  have hmatrix := h.matrix_eq
  unfold elimination at hcircuit hmatrix
  rcases hmethod.reduce_cases G? M with
    ⟨e, events, hreduce⟩ | ⟨rows, cols, events, hsquare, hreduce⟩
  · rw [hreduce] at hk
    cases hk
  rw [hreduce] at hk hcircuit hmatrix
  obtain ⟨N, hrelabel, _, hinner⟩ := Method.reduceRelabelled_of_outcome hk
  obtain ⟨hrows, hcols, hN⟩ := relabel?_ok hrelabel
  have hsquare := hsquare N hrelabel
  subst hN
  -- the elimination inside attaches no layout, so the one attached is that of the placements
  obtain ⟨c, hfactors⟩ := baseMethod_factors hmode hinner
  have hplaced := Method.reduceRelabelled_eq hrows hcols hsquare events hfactors.toMakes
  rw [hplaced] at hcircuit hmatrix
  rw [hfactors.layout_eq] at hcircuit
  have hcircuit : o.circuit = { c with layout := some ⟨rows, cols⟩ } := by
    rw [← Layout.after_identity hrows.length_eq (hcols.length_eq.trans hsquare)]
    exact hcircuit.symm
  refine ⟨⟨rows, cols⟩, M.relabel rows cols, by rw [hcircuit], hrelabel, ?_⟩
  constructor
  · rw [hcircuit]
    refine ⟨hfactors.wellFormed.gates, fun l hl => ?_⟩
    obtain rfl := Option.some.inj hl
    rw [show _ = M.rows from hfactors.qubits_eq]
    exact ⟨hrows, hsquare ▸ hcols⟩
  · rw [hcircuit]
    exact hfactors.qubits_eq
  · rw [← hmatrix]
    exact hfactors.rows_eq
  · rw [hcircuit, ← hmatrix]
    exact hfactors.parity_mul

/-- **The trial of the transpose** does not matter: either circuit is one for the whole matrix. -/
theorem keepCheaper_splits (hmode : s.ReducesRows) (hdirect : s.Produces G? M direct)
    (hidentity : direct.matrix.isIdentity = true)
    (htransposed : s.Produces G? M.transpose transposed) :
    (s.keepCheaper direct transposed).Splits M := by
  obtain ⟨hrealises, hlayout⟩ := keepCheaper_realises hmode hdirect hidentity htransposed
  have hmatrix : (s.keepCheaper direct transposed).matrix = identity M.rows := by
    rw [← hdirect.eq_identity hmode hidentity, hdirect.matrix_eq]
    rcases s.keepCheaper_cases direct transposed with hkept | ⟨_, hkept⟩ <;> rw [hkept]
  have hparity : (s.keepCheaper direct transposed).circuit.parity = M := by
    have hparity := hrealises.parity_eq
    rwa [hlayout] at hparity
  refine ⟨hrealises.wellFormed, hrealises.qubits_eq, ?_, ?_⟩
  · rw [hmatrix]
    rfl
  · rw [hparity, hmatrix]
    exact mul_identity (hdirect.isInvertible hmode hidentity).cols_eq

/-- The transpose is tried only where rows are reduced. -/
theorem reducesRows_of_triesTranspose (h : s.settings.triesTranspose = true) : s.ReducesRows := by
  unfold Settings.triesTranspose at h
  unfold ReducesRows
  simpa using (Bool.and_eq_true_iff.mp h).2

/-! ## Syntheses -/

/-- **The matrix that is split**: the given one or, where placements are searched for, the given one
relabelled by the layout. -/
def Target (s : Setup) (M : ParityMatrix) (l? : Option Layout) (N : ParityMatrix) : Prop :=
  if s.settings.mode.searchesPlacements then
    ∃ l, l? = some l ∧ M.relabel? l.rowPerm l.colPerm = .ok N
  else N = M

/-- A target has the shape of the matrix. -/
theorem Target.shape {l? : Option Layout} {N : ParityMatrix} (h : s.Target M l? N) :
    N.rows = M.rows ∧ N.cols = M.cols := by
  unfold Target at h
  split at h
  · obtain ⟨l, _, hrelabel⟩ := h
    obtain ⟨_, _, rfl⟩ := relabel?_ok hrelabel
    exact ⟨rfl, rfl⟩
  · exact h ▸ ⟨rfl, rfl⟩

/-- A synthesis that succeeds has split its target. -/
theorem exists_target_splits {log log' : List Event}
    (hrun : (s.run M).run.run log = (.ok o, log')) :
    ∃ N, s.Target M o.circuit.layout N ∧ o.Splits N := by
  obtain ⟨G?, direct, _, hdirect, hkept⟩ := (run_eq_ok_iff log).mp ⟨log', hrun⟩
  unfold Target
  rcases s.method_kind with ⟨hmode, hmethod⟩ | ⟨hmode, hoption, hmethod⟩
  · rw [hmode]
    refine ⟨M, rfl, ?_⟩
    split at hkept
    · next htries =>
      obtain ⟨htries, hidentity⟩ := Bool.and_eq_true_iff.mp htries
      obtain ⟨transposed, htransposed, rfl⟩ := hkept
      exact keepCheaper_splits (reducesRows_of_triesTranspose htries) hdirect hidentity htransposed
    · exact hkept ▸ hdirect.splits hmethod
  · -- the transpose is tried for eliminations by rows only
    have hnot : s.settings.triesTranspose = false := by
      refine Bool.eq_false_iff.mpr fun htries => ?_
      rcases reducesRows_of_triesTranspose htries with h | h <;> rw [h] at hmode <;> cases hmode
    rw [hnot] at hkept
    obtain rfl : o = direct := hkept
    obtain ⟨l, N, hl, hrelabel, hsplits⟩ := hdirect.splits_placed hoption hmethod
    rw [hmode]
    exact ⟨N, ⟨l, hl, hrelabel⟩, hsplits⟩

/-- **What a synthesis leaves**, in every mode, for every matrix, graph and settings: if it
succeeds, the circuit times the remainder is the matrix, relabelled by the layout where placements
were searched for. A permutation comes with the result exactly if the remainder is square with one
one in every row and every column. Then it gives the row of the one of each column, and the circuit
with its columns relabelled by it is the matrix that was split. -/
theorem run_splits {log log' : List Event} (hrun : (s.run M).run.run log = (.ok o, log')) :
    ∃ N : ParityMatrix, s.Target M o.circuit.layout N ∧ o.circuit.parity.mul o.matrix = N ∧
      (requireShape M.rows M.rows = .ok () → requireShape M.rows M.cols = .ok () →
        ∃ P, o.circuit.parityMap = .ok P ∧ P.mul? o.matrix = .ok N) ∧
      (o.outputPerm?.isSome = true ↔ o.matrix.OnePerLine) ∧
      ∀ p, o.outputPerm? = some p →
        IsPermutation p M.rows ∧ (∀ c < M.rows, o.matrix.entry (p.getD c 0) c = true) ∧
          o.circuit.parity.relabel? (List.range M.rows) p = .ok N := by
  obtain ⟨N, htarget, hsplits⟩ := exists_target_splits hrun
  obtain ⟨hrows, hcols⟩ := htarget.shape
  refine ⟨N, htarget, hsplits.parity_mul, ?_, ?_, fun p hp => ?_⟩
  · rw [← hrows, ← hcols]
    exact hsplits.mul?_eq
  · rw [← exists_placesOnes_iff, Option.isSome_iff_exists]
    exact exists_congr fun p => permutation?_eq_some_iff
  · have hones := permutation?_eq_some_iff.mp hp
    have hsize : o.matrix.rows = M.rows := hsplits.rows_eq.trans hrows
    refine ⟨hsize ▸ hones.perm, fun c hc => ?_, hrows ▸ hsplits.relabel?_eq hones⟩
    rw [hones.entry _ c (hsize ▸ hc), decide_eq_true rfl]

/-- A genetic search around Gaussian elimination of a singular matrix: rows and columns go round,
and the remainder has two ones in its first row. -/
theorem run_splits_singular :
    let M := ParityMatrix.ofFn 3 3 fun r c => decide (r < 2) || c == 0
    let s : Setup :=
      { settings := { Settings.default with
          mode := .geneticGauss, genetic := ⟨2, 0.8, 0.2, 0, none⟩ }
        graph := none
        source := fun _ => ⟨Dice.ofWords, fun _ => [0], 0, []⟩ }
    s.settings.check = .ok () ∧ ∃ o log, (s.run M).run.run [] = (.ok o, log) ∧ o.rank = 2 ∧
      o.circuit.layout = some ⟨[1, 2, 0], [1, 2, 0]⟩ ∧ ¬ o.matrix.OnePerLine ∧
      M.relabel? [1, 2, 0] [1, 2, 0] = .ok (o.circuit.parity.mul o.matrix) := by
  intro M s
  have hfound : (((s.run M).run.run []).1.toOption.map fun o =>
      (o.rank, o.circuit.layout, o.outputPerm?)) =
        some (2, some ⟨[1, 2, 0], [1, 2, 0]⟩, none) := by
    decide +kernel
  obtain ⟨o, hok, heq⟩ := Option.map_eq_some_iff.mp hfound
  obtain ⟨hrank, hlayout, hperm⟩ : o.rank = 2 ∧ o.circuit.layout = some ⟨[1, 2, 0], [1, 2, 0]⟩ ∧
      o.outputPerm? = none := by simpa using heq
  have hrun : (s.run M).run.run [] = (.ok o, ((s.run M).run.run []).2) :=
    Prod.ext (eq_ok_of_toOption hok) rfl
  obtain ⟨N, htarget, rfl, _, hiff, _⟩ := run_splits hrun
  refine ⟨Settings.check_eq_ok (by decide), o, _, hrun, hrank, hlayout, fun h => ?_, ?_⟩
  · rw [← hiff, hperm] at h
    cases h
  · obtain ⟨l, hl, hrelabel⟩ := htarget
    obtain rfl := Option.some.inj (hlayout.symm.trans hl)
    exact hrelabel

end Setup

end Synthesis

end CnotSynthesis
