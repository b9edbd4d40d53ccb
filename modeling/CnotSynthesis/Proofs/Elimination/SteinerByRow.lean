import CnotSynthesis.Proofs.Elimination.SteinerAlongOrder

/-! # Steiner elimination by row number

Any matrix on a connected graph with as many qubits as rows, pivots by row number.

* **`CouplingGraph.SuffixConnected`** — the qubits from any number on are connected. It is what the
  downward pass needs in order not to fail.
* **`Reduction.descend_yields`** — the downward pass keeps the rows of the pivots and clears the
  rest of each column: the echelon form of Gaussian elimination, by other row additions.
* **`Reduction.ascend_yields`** — the upward pass, through rows that are not its own.
* **`Method.steiner_eq_gauss`** — the result is that of Gaussian elimination. -/

namespace CnotSynthesis

open Work

/-- The qubits from any number on are connected. -/
def CouplingGraph.SuffixConnected (G : CouplingGraph) : Prop :=
  ∀ p, G.ConnectedOn {q | p ≤ q ∧ q < G.size}

namespace ParityMatrix.EchelonTo

variable {M : ParityMatrix} {pivots : List ℕ} {c : ℕ}

/-- When every row has its pivot, all further columns are passed over. -/
theorem skip_all (h : M.EchelonTo pivots c) (hfull : M.rows ≤ pivots.length) (k : ℕ) :
    M.EchelonTo pivots (c + k) := by
  induction k with
  | zero => exact h
  | succ k ih =>
    refine ih.skip ?_
    intro r hr
    exact M.entry_eq_false fun hin => by omega

end ParityMatrix.EchelonTo

namespace Reduction

open ParityMatrix

variable {G : CouplingGraph} {F : Prop}

/-! ## Down -/

/-- The rows from the pivot on. -/
theorem mem_range'_rows {pivot n r : ℕ} (h : pivot ≤ n) :
    r ∈ List.range' pivot (n - pivot) ↔ pivot ≤ r ∧ r < n := by
  rw [List.mem_range'_1]
  omega

/-- **One column with a pivot**: the cleared matrix is in echelon form one column further. -/
theorem echelonTo_of_clearBelow {w w' : Work} {pivots : List ℕ} {c : ℕ}
    (h : w.matrix.EchelonTo pivots c) (hlt : pivots.length < w.matrix.rows)
    (hsteps : Steps (CoupledIn G (List.range' pivots.length (w.matrix.rows - pivots.length))) w w')
    (hpivot : w'.matrix.entry pivots.length c = true)
    (hbelow : ∀ r ∈ List.range' pivots.length (w.matrix.rows - pivots.length),
      r ≠ pivots.length → w'.matrix.entry r c = false) :
    w'.matrix.EchelonTo (pivots ++ [c]) (c + 1) := by
  have hmem : ∀ {r}, r ∈ List.range' pivots.length (w.matrix.rows - pivots.length) ↔
      pivots.length ≤ r ∧ r < w.matrix.rows := mem_range'_rows hlt.le
  refine h.snoc hsteps.rows_eq hlt ?_ ?_ hpivot ?_
  · -- the rows of the pivots are no targets
    intro r hr j
    refine hsteps.entry_eq_of_notMem (S := {r | pivots.length ≤ r}) ?_ (by simpa using hr) j
    exact fun a b hab => (hmem.mp hab.1).1
  · -- the columns to the left vanish on all sources
    intro r hr j hj
    have hzero : ∀ r, pivots.length ≤ r → w.matrix.entry r j = false := fun r hr => by
      rw [Bool.eq_false_iff]
      intro hone
      obtain ⟨p, hp, _⟩ := h.lead hj hone
      rw [List.getElem?_eq_none hr] at hp
      cases hp
    rw [hsteps.column_eq (S := {r | pivots.length ≤ r}) (fun a b hab => (hmem.mp hab.2.1).1) hzero]
    exact hzero r hr
  · intro r hr
    by_cases hrows : r < w.matrix.rows
    · exact hbelow r (hmem.mpr ⟨hr.le, hrows⟩) hr.ne'
    · refine w'.matrix.entry_eq_false ?_
      rw [hsteps.rows_eq]
      exact fun hin => hrows hin.1

/-- **The downward pass** over `k` columns adds their pivots. -/
theorem descend_yields (k : ℕ) : ∀ (c : ℕ) (pivots : List ℕ) (w : Work), G.size = w.matrix.rows →
    w.matrix.EchelonTo pivots c →
    Yields (¬ G.SuffixConnected) (descend G k c pivots.length) w fun columns w' =>
      w'.matrix.rows = w.matrix.rows ∧ w'.matrix.cols = w.matrix.cols ∧
        w'.matrix.EchelonTo (pivots ++ columns) (c + k) := by
  induction k with
  | zero =>
    intro c pivots w hsize h
    exact yields_pure ⟨rfl, rfl, by simpa using h⟩
  | succ k ih =>
    intro c pivots w hsize h
    refine yields_matrix_bind ?_
    by_cases hrows : w.matrix.rows ≤ pivots.length
    · rw [if_pos hrows]
      refine yields_pure ⟨rfl, rfl, ?_⟩
      rw [List.append_nil]
      exact h.skip_all hrows (k + 1)
    · rw [if_neg hrows]
      dsimp only
      have hlt : pivots.length < w.matrix.rows := by omega
      have hmem : ∀ {r}, r ∈ List.range' pivots.length (w.matrix.rows - pivots.length) ↔
          pivots.length ≤ r ∧ r < w.matrix.rows := mem_range'_rows hlt.le
      have hpivot : pivots.length ∈ List.range' pivots.length (w.matrix.rows - pivots.length) :=
        hmem.mpr ⟨le_rfl, hlt⟩
      split
      · -- no row that is left has a one in this column
        next hskip =>
        obtain ⟨hlength, hzero⟩ := hskip
        have hnext : w.matrix.EchelonTo pivots (c + 1) := by
          refine h.skip ?_
          intro r hr
          by_cases hrows : r < w.matrix.rows
          · by_cases heq : r = pivots.length
            · rw [heq]
              simpa using hzero
            · exact entry_eq_false_of_length_terminalsAt hpivot hlength (hmem.mpr ⟨hr, hrows⟩) heq
          · exact w.matrix.entry_eq_false fun hin => hrows hin.1
        refine (ih (c + 1) pivots w hsize hnext).mono ?_
        rintro columns w' ⟨hrows', hcols', hechelon⟩
        rw [Nat.add_right_comm] at hechelon
        exact ⟨hrows', hcols', hechelon⟩
      · next hskip =>
        have hone : ∃ r ∈ List.range' pivots.length (w.matrix.rows - pivots.length),
            w.matrix.entry r c = true := by
          by_contra hnone
          push Not at hnone
          refine hskip ⟨?_, by simpa using hnone _ hpivot⟩
          -- the pivot row is the only terminal
          have hfilter : terminalsAt w.matrix c pivots.length
              (List.range' pivots.length (w.matrix.rows - pivots.length)) =
              (List.range' pivots.length (w.matrix.rows - pivots.length)).filter
                (· == pivots.length) := by
            refine List.filter_congr fun r hr => ?_
            rw [Bool.eq_false_iff.mpr (hnone r hr), Bool.or_false]
          rw [hfilter, List.filter_beq, List.length_replicate]
          exact List.count_eq_one_of_mem (List.nodup_range' 1) hpivot
        refine (clearBelow_yields hpivot (fun q hq => hsize ▸ (hmem.mp hq).2) hsize hone ?_).bind ?_
        · intro hnot hsuffix
          refine hnot ?_
          have hset : {q | q ∈ List.range' pivots.length (w.matrix.rows - pivots.length)} =
              {q | pivots.length ≤ q ∧ q < G.size} := by
            ext q
            rw [hsize]
            exact hmem
          rw [hset]
          exact hsuffix pivots.length
        rintro _ w₁ ⟨hsteps, hpivotOne, hbelow⟩
        have hnext := echelonTo_of_clearBelow h hlt hsteps hpivotOne hbelow
        have hrec := ih (c + 1) (pivots ++ [c]) w₁ (hsize.trans hsteps.rows_eq.symm) hnext
        rw [List.length_append, List.length_singleton] at hrec
        refine hrec.bind ?_
        rintro columns w' ⟨hrows', hcols', hechelon⟩
        refine yields_pure ⟨hrows'.trans hsteps.rows_eq, hcols'.trans hsteps.cols_eq, ?_⟩
        rw [List.append_assoc, Nat.add_right_comm] at hechelon
        exact hechelon

/-! ## Up -/

/-- **The upward pass** over the first pivots, when the later ones are cleared. -/
theorem ascend_yields (hG : G.isConnected = true) {pivots : List ℕ} {c : ℕ} (first : List ℕ) :
    ∀ (rest : List ℕ) (w : Work), pivots = first ++ rest → G.size = w.matrix.rows →
      w.matrix.EchelonTo pivots c → w.matrix.ClearedFrom pivots first.length →
      Yields F (ascend G first.zipIdx.reverse) w fun _ w' => Steps G.Coupled w w' ∧
        w'.matrix.EchelonTo pivots c ∧ w'.matrix.ClearedFrom pivots 0 := by
  induction first using List.reverseRecOn with
  | nil =>
    intro rest w _ _ h hcleared
    exact yields_pure ⟨Steps.refl w, h, hcleared⟩
  | append_singleton first p ih =>
    intro rest w hpivots hsize h hcleared
    have hp : pivots[first.length]? = some p := by
      rw [hpivots, List.append_assoc, List.getElem?_append_right le_rfl, Nat.sub_self]
      rfl
    have hlt : first.length < w.matrix.rows := by
      obtain ⟨hlt, _⟩ := List.getElem?_eq_some_iff.mp hp
      exact lt_of_lt_of_le hlt h.length_le
    rw [List.length_append, List.length_singleton] at hcleared
    have hzip : ((first ++ [p]).zipIdx).reverse = (p, first.length) :: first.zipIdx.reverse := by
      simp [List.zipIdx_append]
    rw [hzip]
    have hearlier : ∀ q ∈ List.range (first.length + 1), q < G.size := by
      intro q hq
      have := List.mem_range.mp hq
      omega
    refine (clearAbove_yields (by simp) hearlier hsize (h.pivot hp) ?_ hG).bind ?_
    · intro r hr
      refine h.entry_below hp ?_
      simpa using hr
    · rintro _ w₁ ⟨hsteps, hentry⟩
      obtain ⟨hechelon, hclear⟩ := h.clear hcleared hp hsteps.rows_eq hentry
      refine (ih ([p] ++ rest) w₁ (by rw [hpivots, List.append_assoc])
        (hsize.trans hsteps.rows_eq.symm) hechelon hclear).mono ?_
      rintro _ w' ⟨hsteps', hrest⟩
      exact ⟨hsteps.trans hsteps', hrest⟩

/-! ## Both passes -/

/-- **Pivots by row number** lead to the reduced echelon form. -/
theorem steinerByRow_yields (hG : G.isConnected = true) {w : Work}
    (hsize : G.size = w.matrix.rows) :
    Yields (¬ G.SuffixConnected) (steinerByRow G true) w fun k w' =>
      ∃ pivots, w'.matrix.ReducedEchelon pivots ∧ k = pivots.length := by
  refine yields_matrix_bind ?_
  refine (descend_yields w.matrix.cols 0 [] w hsize w.matrix.echelonTo_zero).bind ?_
  rintro columns w₁ ⟨hrows, hcols, hechelon⟩
  rw [List.nil_append, Nat.zero_add] at hechelon
  refine (ascend_yields hG columns [] w₁ (by simp) (hsize.trans hrows.symm) hechelon
    (clearedFrom_length _ _)).bind ?_
  rintro _ w' ⟨hsteps, hechelon', hcleared⟩
  refine yields_pure ⟨columns, ⟨?_, hcleared⟩, rfl⟩
  rw [hsteps.cols_eq, hcols]
  exact hechelon'

/-- **Steiner elimination, in either order**, leads to the reduced echelon form. -/
theorem steiner_yields (hG : G.isConnected = true) (order : PivotOrder) {w : Work}
    (hsize : G.size = w.matrix.rows) :
    Yields (¬ G.SuffixConnected) (steiner order true G) w fun k w' =>
      ∃ pivots, w'.matrix.ReducedEchelon pivots ∧ k = pivots.length := by
  refine yields_matrix_bind ?_
  split
  · next hbranch =>
    obtain ⟨_, hsquare, hrank⟩ := hbranch
    have hM : w.matrix.IsInvertible := isInvertible_iff.mpr ⟨(beq_iff_eq.mp hsquare).symm, hrank⟩
    refine (steinerAlongOrder_yields hG true hsize hM).mono ?_
    rintro k w' ⟨hk, _, hfull⟩
    rw [hfull rfl]
    exact ⟨List.range w.matrix.rows, reducedEchelon_identity _, by rw [hk, List.length_range]⟩
  · exact steinerByRow_yields hG hsize

end Reduction

namespace Method

/-- **Steiner elimination agrees with Gaussian elimination**: on a connected graph, a run that
succeeds ends with the matrix and the rank of Gaussian elimination, that is with the only reduced
echelon form that row additions reach, and all its row additions are between coupled qubits. It
succeeds on every matrix if the qubits from any number on are connected. -/
theorem steiner_eq_gauss {G : CouplingGraph} (hG : G.isConnected = true) {M : ParityMatrix}
    (hsize : G.size = M.rows) (order : PivotOrder) (c? : Option Circuit) :
    let run := (Method.steiner true order).reduce (some G) M c?
    (∀ k, run.outcome = .ok k →
      run.matrix = (CnotSynthesis.gauss true M).1.matrix ∧ k = (CnotSynthesis.gauss true M).2 ∧
      k = (M.toMatrix M.rows M.cols).rank ∧
      (run.matrix.toMatrix run.matrix.rows run.matrix.cols).IsReducedRowEchelon ∧
      ∀ ops pivots, (∀ op ∈ ops, op.IsProper M.rows) → (M.addRows ops).ReducedEchelon pivots →
        M.addRows ops = run.matrix) ∧
    run.matrix = M.addRows (rowAdditions run.events) ∧
    (∀ op ∈ rowAdditions run.events, G.hasEdge op.target op.source = true) ∧
    (G.SuffixConnected → (∀ c ∈ c?, M.rows ≤ c.qubits) → ∃ k, run.outcome = .ok k) := by
  intro run
  have hplan : run = ((Reduction.steiner order true G).plan M).record M c? := by
    rw [← plan_steinerReduction true order hsize]
    exact reduce_steiner (some G) M c? true order
  obtain ⟨hcoupled, hmatrix⟩ := (Reduction.proceeds_steiner (G := G) order true).exists_addRows M
  have hyields := Reduction.steiner_yields hG order (w := Work.start M) hsize
  have htranscribes := Plan.transcribes_record _ hmatrix c?
  rw [← hplan] at htranscribes
  refine ⟨?_, htranscribes.matrix, ?_, ?_⟩
  · intro k hk
    rw [hplan] at hk ⊢
    obtain ⟨hk, hfinal, _⟩ := Plan.eq_of_record_ok hk
    rw [hfinal]
    obtain ⟨pivots, hreduced, hlength⟩ := hyields.of_ok hk
    have hproper : ∀ op ∈ rowAdditions ((Reduction.steiner order true G).plan M).work.events,
        op.target ≠ op.source := fun op hop => CouplingGraph.ne_of_hasEdge (hcoupled op hop)
    have hunique := gauss_unique (M := M) hproper (by rw [← hmatrix]; exact hreduced)
    rw [← hmatrix] at hunique
    have hkgauss : k = (CnotSynthesis.gauss true M).2 := hlength.trans hunique.2
    refine ⟨hunique.1, hkgauss, ?_, hreduced.isReducedRowEchelon, ?_⟩
    · rw [hkgauss, ← M.rank_eq_rank_toMatrix, gauss_rank]
    · intro ops pivots' hops hreduced'
      rw [hunique.1]
      exact (gauss_unique (fun op hop => (hops op hop).2.2) hreduced').1
  · intro op hop
    refine hcoupled op ?_
    rcases htranscribes.complete with hall | ⟨c, _, op', rest, e, hsplit, _⟩
    · rwa [← hall]
    · rw [hsplit]
      exact List.mem_append_left _ hop
  · intro hsuffix hc
    obtain ⟨k, hk⟩ := hyields.exists_ok (not_not.mpr hsuffix)
    refine ⟨k, ?_⟩
    have := reduce_steiner_eq hsize true order hc
    change ((Method.steiner true order).reduce (some G) M c?).outcome = _
    rw [this, hk]
    rfl

/-- Three rows of four columns and rank two, on qubits that are all coupled. -/
theorem steiner_eq_gauss_rectangular :
    let G := CouplingGraph.complete 3
    let M := ParityMatrix.ofFn 3 4 fun r c => c == r || c == (r + 1) % 3 || (c == 3 && r < 2)
    G.isConnected = true ∧ G.size = M.rows ∧ G.SuffixConnected ∧
      ((Method.steiner true .byRow).reduce (some G) M none).outcome = .ok 2 ∧
        ((Method.steiner true .byRow).reduce (some G) M none).matrix =
          (CnotSynthesis.gauss true M).1.matrix := by
  intro G M
  have hG : G.isConnected = true := by decide
  have hsuffix : G.SuffixConnected := fun p =>
    CouplingGraph.connectedOn_complete fun q hq => hq.2
  obtain ⟨hagree, _, _, hsucceeds⟩ := steiner_eq_gauss (M := M) hG rfl .byRow none
  obtain ⟨k, hk⟩ := hsucceeds hsuffix (by simp)
  have hrank : (CnotSynthesis.gauss true M).2 = 2 := by decide
  refine ⟨hG, rfl, hsuffix, ?_, (hagree k hk).1⟩
  rw [hk, (hagree k hk).2.1, hrank]

end Method

end CnotSynthesis
