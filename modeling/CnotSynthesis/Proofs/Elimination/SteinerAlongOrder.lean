import CnotSynthesis.Proofs.Elimination.Clearing
import CnotSynthesis.Proofs.Elimination.Recording
import CnotSynthesis.Proofs.Graph.DepthFirst

/-! # Steiner elimination in the order of the graph

An invertible matrix on a connected graph, pivots in elimination order.

* **`ParityMatrix.TriangularTo M done rest`** — the pivots `done` have a one in their own column and
  zeros below it along the order `done ++ rest`.
* **`Reduction.descendAlong_yields`** — the downward pass never fails: the qubits still to come are
  connected, and a column without a one among them would make the matrix singular.
* **`Reduction.ascendAlong_yields`** — the upward pass never fails and leaves the identity.
* **`Method.steiner_byGraph_succeeds`** — the whole elimination. -/

namespace CnotSynthesis

open Work

namespace ParityMatrix

/-- **Triangular along an order**, up to `rest`: each pivot of `done` has a one in its own column,
and the later qubits have none there. -/
structure TriangularTo (M : ParityMatrix) (done rest : List ℕ) : Prop where
  diagonal : ∀ q ∈ done, M.entry q q = true
  below : done.Pairwise fun earlier later => M.entry later earlier = false
  rest : ∀ q ∈ done, ∀ r ∈ rest, M.entry r q = false

variable {M N : ParityMatrix} {done rest : List ℕ} {p : ℕ}

/-- Before the first pivot there is nothing to ask. -/
theorem triangularTo_nil (M : ParityMatrix) (order : List ℕ) : M.TriangularTo [] order where
  diagonal := by simp
  below := List.Pairwise.nil
  rest := by simp

/-- One more pivot, after row additions among the rows still to come. -/
theorem TriangularTo.snoc (h : M.TriangularTo done (p :: rest))
    (hkeep : ∀ r ∈ done, ∀ j, N.entry r j = M.entry r j)
    (hcolumn : ∀ q ∈ done, ∀ r, N.entry r q = M.entry r q)
    (hpivot : N.entry p p = true) (hbelow : ∀ r ∈ rest, N.entry r p = false) :
    N.TriangularTo (done ++ [p]) rest where
  diagonal := by
    intro q hq
    rcases List.mem_append.mp hq with hq | hq
    · rw [hkeep q hq]
      exact h.diagonal q hq
    · rw [List.mem_singleton.mp hq]
      exact hpivot
  below := by
    rw [List.pairwise_append]
    refine ⟨?_, List.pairwise_singleton _ _, ?_⟩
    · refine h.below.imp_of_mem ?_
      intro a b ha _ hab
      rw [hcolumn a ha]
      exact hab
    · intro a ha b hb
      rw [List.mem_singleton.mp hb, hcolumn a ha]
      exact h.rest a ha p List.mem_cons_self
  rest := by
    intro q hq r hr
    rcases List.mem_append.mp hq with hq | hq
    · rw [hcolumn q hq]
      exact h.rest q hq r (List.mem_cons_of_mem _ hr)
    · rw [List.mem_singleton.mp hq]
      exact hbelow r hr

/-- **A pivot exists**: the rows still to come are independent, and they vanish on the columns that
are done. -/
theorem TriangularTo.exists_one (h : M.TriangularTo done (p :: rest)) (hM : M.IsInvertible)
    (horder : IsPermutation (done ++ p :: rest) M.rows) :
    ∃ r ∈ p :: rest, M.entry r p = true := by
  by_contra hnone
  have hnodup : (p :: rest).Nodup := (List.nodup_append.mp horder.nodup).2.1
  have hlt : ∀ q ∈ p :: rest, q < M.rows := fun q hq => horder.lt q (List.mem_append_right _ hq)
  have hle : (p :: rest).length ≤ rest.length := by
    refine hM.length_le hnodup hlt (List.nodup_cons.mp hnodup).2
      (fun q hq => hlt q (List.mem_cons_of_mem _ hq)) ?_
    intro r hr c hc hcrest
    rcases List.mem_append.mp (horder.mem_iff.mpr hc) with hdone | hlater
    · exact h.rest c hdone r hr
    · rcases List.mem_cons.mp hlater with rfl | hlater
      · rw [Bool.eq_false_iff]
        exact fun hone => hnone ⟨r, hr, hone⟩
      · exact absurd hlater hcrest
  simp at hle

/-- The columns of `qs` hold no other one than the diagonal one. -/
def ClearedOn (M : ParityMatrix) (qs : List ℕ) : Prop :=
  ∀ q ∈ qs, ∀ r, r ≠ q → M.entry r q = false

/-- **One pivot of the upward pass**: the pivot row is a unit row by then, so adding it changes its
own column only. -/
theorem TriangularTo.clear {earlier later : List ℕ}
    (h : M.TriangularTo (earlier ++ p :: later) []) (hp : p ∉ later) (hlater : M.ClearedOn later)
    (hN : ∀ r j, N.entry r j =
      if r ≠ p ∧ M.entry r p = true then (M.entry r j != M.entry p j) else M.entry r j) :
    N.TriangularTo (earlier ++ p :: later) [] ∧ N.ClearedOn (p :: later) := by
  obtain ⟨_, _, hcross⟩ := List.pairwise_append.mp h.below
  have hunit : ∀ q ∈ earlier ++ p :: later, q ≠ p → M.entry p q = false := by
    intro q hq hqp
    rcases List.mem_append.mp hq with hq | hq
    · exact hcross q hq p List.mem_cons_self
    · rcases List.mem_cons.mp hq with rfl | hq
      · exact absurd rfl hqp
      · exact hlater q hq p (Ne.symm hqp)
  -- so only column `p` changes
  have hsame : ∀ q ∈ earlier ++ p :: later, q ≠ p → ∀ r, N.entry r q = M.entry r q := by
    intro q hq hqp r
    rw [hN]
    split
    · rw [hunit q hq hqp, Bool.bne_false]
    · rfl
  have hcolumn : ∀ r, r ≠ p → N.entry r p = false := by
    intro r hrp
    have hpp : M.entry p p = true := h.diagonal p (by simp)
    rw [hN]
    split
    · next hone => rw [hone.2, hpp]; rfl
    · next hnot => exact Bool.eq_false_iff.mpr fun hone => hnot ⟨hrp, hone⟩
  have hpivot : N.entry p p = true := by
    rw [hN, if_neg (by simp)]
    exact h.diagonal p (by simp)
  refine ⟨⟨?_, ?_, by simp⟩, ?_⟩
  · intro q hq
    by_cases hqp : q = p
    · rw [hqp]
      exact hpivot
    · rw [hsame q hq hqp]
      exact h.diagonal q hq
  · refine h.below.imp_of_mem ?_
    intro a b ha _ hab
    by_cases hap : a = p
    · rw [hap] at hab ⊢
      refine hcolumn b ?_
      rintro rfl
      rw [h.diagonal b (by simp)] at hab
      cases hab
    · rw [hsame a ha hap]
      exact hab
  · intro q hq r hrq
    rcases List.mem_cons.mp hq with rfl | hq
    · exact hcolumn r hrq
    · rw [hsame q (by simp [hq]) (fun heq => hp (heq ▸ hq))]
      exact hlater q hq r hrq

/-- A triangular matrix with all pivot columns cleared is the identity. -/
theorem eq_identity_of_clearedOn {order : List ℕ} (hsquare : M.cols = M.rows)
    (horder : IsPermutation order M.rows) (htri : M.TriangularTo order []) (h : M.ClearedOn order) :
    M = identity M.rows := by
  refine ext_entry rfl hsquare ?_
  intro r c hr hc
  have hmem : c ∈ order := horder.mem_iff.mpr (hsquare ▸ hc)
  rw [entry_identity]
  by_cases hrc : r = c
  · subst hrc
    rw [htri.diagonal r hmem]
    simpa using hr
  · rw [h c hmem r hrc]
    simp [hrc]

end ParityMatrix

namespace Reduction

open ParityMatrix

variable {G : CouplingGraph} {F : Prop}

/-! ## Down -/

/-- **The downward pass** takes every qubit as a pivot. -/
theorem descendAlong_yields (hG : G.isConnected = true) (rest : List ℕ) :
    ∀ (done : List ℕ) (w : Work), G.eliminationOrder = done ++ rest → G.size = w.matrix.rows →
      w.matrix.IsInvertible → w.matrix.TriangularTo done rest →
      Yields F (descendAlong G rest) w fun _ w' =>
        w'.matrix.rows = w.matrix.rows ∧ w'.matrix.IsInvertible ∧
          w'.matrix.TriangularTo G.eliminationOrder [] := by
  have hperm := CouplingGraph.eliminationOrder_isPermutation hG
  induction rest with
  | nil =>
    intro done w horder hsize hinv htri
    rw [horder, List.append_nil]
    exact yields_pure ⟨rfl, hinv, htri⟩
  | cons p rest ih =>
    intro done w horder hsize hinv htri
    have hlt : ∀ q ∈ p :: rest, q < G.size := by
      intro q hq
      rw [horder] at hperm
      exact hperm.lt q (List.mem_append_right _ hq)
    have hone : ∃ r ∈ p :: rest, w.matrix.entry r p = true := by
      refine htri.exists_one hinv ?_
      rw [← horder, ← hsize]
      exact hperm
    refine yields_matrix_bind ?_
    dsimp only
    rw [if_neg]
    · refine (clearBelow_yields List.mem_cons_self hlt hsize hone ?_).bind ?_
      · exact fun hnot => absurd (CouplingGraph.connectedOn_suffix hG horder) hnot
      rintro _ w₁ ⟨hsteps, hpivot, hbelow⟩
      have hrows := hsteps.rows_eq
      -- the rows that are done are no targets
      have hfresh : ∀ r ∈ done, r ∉ p :: rest := by
        rw [horder] at hperm
        exact fun r hr hmem => (List.nodup_append.mp hperm.nodup).2.2 r hr r hmem rfl
      have hnext : w₁.matrix.TriangularTo (done ++ [p]) rest := by
        refine htri.snoc ?_ ?_ hpivot ?_
        · intro r hr j
          exact hsteps.entry_eq_of_notMem (S := {q | q ∈ p :: rest}) (fun a b hab => hab.1)
            (hfresh r hr) j
        · intro q hq r
          exact hsteps.column_eq (S := {q | q ∈ p :: rest}) (fun a b hab => hab.2.1)
            (htri.rest q hq) r
        · intro r hr
          refine hbelow r (List.mem_cons_of_mem _ hr) ?_
          rintro rfl
          rw [horder] at hperm
          exact (List.nodup_cons.mp (List.nodup_append.mp hperm.nodup).2.1).1 hr
      have hinv₁ := hsteps.isInvertible (fun a b hab => CouplingGraph.ne_of_hasEdge hab.2.2) hinv
      refine (ih (done ++ [p]) w₁ (by rw [horder, List.append_assoc]; rfl) (hsize.trans hrows.symm)
        hinv₁ hnext).mono ?_
      rintro _ w' ⟨hrows', hrest⟩
      exact ⟨hrows'.trans hrows, hrest⟩
    · rintro ⟨hlength, hpp⟩
      obtain ⟨r, hr, hrp⟩ := hone
      by_cases hrp' : r = p
      · rw [hrp'] at hrp
        rw [hrp] at hpp
        cases hpp
      · rw [entry_eq_false_of_length_terminalsAt List.mem_cons_self hlength hr hrp'] at hrp
        cases hrp

/-! ## Up -/

/-- **The upward pass** clears every column. -/
theorem ascendAlong_yields (hG : G.isConnected = true) {order : List ℕ}
    (horder : IsPermutation order G.size) (reversed : List ℕ) :
    ∀ (later : List ℕ) (w : Work), order = reversed.reverse ++ later → G.size = w.matrix.rows →
      w.matrix.TriangularTo order [] → w.matrix.ClearedOn later →
      Yields F (ascendAlong G reversed) w fun _ w' => Steps G.Coupled w w' ∧
        w'.matrix.TriangularTo order [] ∧ w'.matrix.ClearedOn order := by
  induction reversed with
  | nil =>
    intro later w heq hsize htri hlater
    have heq : order = later := heq
    rw [← heq] at hlater
    exact yields_pure ⟨Steps.refl w, htri, hlater⟩
  | cons p earlier ih =>
    intro later w heq hsize htri hlater
    have hsplit : order = earlier.reverse ++ p :: later := by
      rw [heq, List.reverse_cons, List.append_assoc]
      rfl
    have hnodup := horder.nodup
    rw [hsplit] at hnodup
    have hp : p ∉ later := (List.nodup_cons.mp (List.nodup_append.mp hnodup).2.1).1
    have hmem : ∀ q ∈ (p :: earlier).reverse, q ∈ order := by
      intro q hq
      rw [heq]
      exact List.mem_append_left _ hq
    refine (clearAbove_yields (by simp) (fun q hq => horder.lt q (hmem q hq)) hsize
      (htri.diagonal p (hmem p (by simp))) ?_ hG).bind ?_
    · -- a row that is not earlier is later or outside the matrix
      intro r hr
      by_cases hrlater : r ∈ later
      · have hbelow := htri.below
        rw [hsplit] at hbelow
        exact (List.pairwise_cons.mp (List.pairwise_append.mp hbelow).2.1).1 r hrlater
      · refine w.matrix.entry_eq_false ?_
        rintro ⟨hrows, _⟩
        have hr' : r ∈ order := horder.mem_iff.mpr (hsize ▸ hrows)
        rw [heq] at hr'
        rcases List.mem_append.mp hr' with hr' | hr'
        · exact hr hr'
        · exact hrlater hr'
    · rintro _ w₁ ⟨hsteps, hentry⟩
      rw [hsplit] at htri
      obtain ⟨htri₁, hcleared₁⟩ := TriangularTo.clear htri hp hlater hentry
      rw [← hsplit] at htri₁
      refine (ih (p :: later) w₁ hsplit (hsize.trans hsteps.rows_eq.symm) htri₁ hcleared₁).mono ?_
      rintro _ w' ⟨hsteps', hrest⟩
      exact ⟨hsteps.trans hsteps', hrest⟩

/-- **Pivots in elimination order** on a connected graph: an invertible matrix becomes triangular
along the order, and the identity if the columns are cleared upwards too. -/
theorem steinerAlongOrder_yields (hG : G.isConnected = true) (full : Bool) {w : Work}
    (hsize : G.size = w.matrix.rows) (hM : w.matrix.IsInvertible) :
    Yields F (steinerAlongOrder G full) w fun k w' => k = w.matrix.rows ∧
      w'.matrix.TriangularTo G.eliminationOrder [] ∧
      (full = true → w'.matrix = identity w.matrix.rows) := by
  have hperm := CouplingGraph.eliminationOrder_isPermutation hG
  have hlength : G.eliminationOrder.length = w.matrix.rows := hperm.length_eq.trans hsize
  refine (descendAlong_yields hG G.eliminationOrder [] w rfl hsize hM
    (w.matrix.triangularTo_nil _)).bind ?_
  rintro _ w₁ ⟨hrows, hinv, htri⟩
  cases full with
  | false => exact yields_pure ⟨hlength, htri, by simp⟩
  | true =>
    refine (ascendAlong_yields hG hperm G.eliminationOrder.reverse [] w₁ (by simp)
      (hsize.trans hrows.symm) htri (by simp [ClearedOn])).bind ?_
    rintro _ w' ⟨hsteps, htri', hcleared⟩
    have hrows' : w'.matrix.rows = w.matrix.rows := hsteps.rows_eq.trans hrows
    have hsquare : w'.matrix.cols = w'.matrix.rows := by
      rw [hsteps.cols_eq, hsteps.rows_eq]
      exact hinv.cols_eq
    refine yields_pure ⟨hlength, htri', fun _ => ?_⟩
    rw [← hrows']
    exact eq_identity_of_clearedOn hsquare (by rw [hrows', ← hsize]; exact hperm) htri' hcleared

/-- Invertible matrices are reduced in elimination order. -/
theorem steiner_byGraph_yields (hG : G.isConnected = true) (full : Bool) {w : Work}
    (hsize : G.size = w.matrix.rows) (hM : w.matrix.IsInvertible) :
    Yields F (steiner .byGraph full G) w fun k w' => k = w.matrix.rows ∧
      w'.matrix.TriangularTo G.eliminationOrder [] ∧
      (full = true → w'.matrix = identity w.matrix.rows) := by
  obtain ⟨hsquare, hrank⟩ := isInvertible_iff.mp hM
  refine yields_matrix_bind ?_
  rw [if_pos ⟨rfl, beq_iff_eq.mpr hsquare.symm, hrank⟩]
  exact steinerAlongOrder_yields hG full hsize hM

end Reduction

namespace Method

/-- A Steiner elimination on a graph of the right size, recorded in a circuit with enough wires, is
its plan. -/
theorem reduce_steiner_eq {G : CouplingGraph} {M : ParityMatrix} (hsize : G.size = M.rows)
    (full : Bool) (order : PivotOrder) {c? : Option Circuit} (hc : ∀ c ∈ c?, M.rows ≤ c.qubits) :
    (Method.steiner full order).reduce (some G) M c? =
      ⟨((Reduction.steiner order full G).plan M).work.matrix,
        c?.map (·.prepend (rowAdditions ((Reduction.steiner order full G).plan M).work.events)),
        ((Reduction.steiner order full G).plan M).work.events,
        ((Reduction.steiner order full G).plan M).outcome.mapError .refused⟩ := by
  have hcoupled := (Reduction.proceeds_steiner (G := G) order full).exists_addRows M
  rw [reduce_steiner, plan_steinerReduction full order hsize]
  refine Plan.record_of_isProper _ ?_ hc
  intro op hop
  obtain ⟨ht, hs⟩ := CouplingGraph.lt_of_hasEdge (hcoupled.1 op hop)
  rw [hsize] at ht hs
  exact ⟨ht, hs, CouplingGraph.ne_of_hasEdge (hcoupled.1 op hop)⟩

/-- **Steiner elimination in the order of the graph never fails** on an invertible matrix and a
connected graph. It adds coupled rows only, and ends with the identity, or, if it only goes down,
with a matrix that is triangular along the elimination order. -/
theorem steiner_byGraph_succeeds {G : CouplingGraph} (hG : G.isConnected = true) {M : ParityMatrix}
    (hsize : G.size = M.rows) (hM : M.IsInvertible) (full : Bool) {c? : Option Circuit}
    (hc : ∀ c ∈ c?, M.rows ≤ c.qubits) :
    let run := (Method.steiner full .byGraph).reduce (some G) M c?
    run.outcome = .ok M.rows ∧
      run.matrix = M.addRows (rowAdditions run.events) ∧
      (∀ op ∈ rowAdditions run.events, G.hasEdge op.target op.source = true) ∧
      IsPermutation G.eliminationOrder M.rows ∧
      (full = true → run.matrix = ParityMatrix.identity M.rows) ∧
      ∀ i p : ℕ, G.eliminationOrder[i]? = some p → run.matrix.entry p p = true ∧
        ∀ j q : ℕ, i < j → G.eliminationOrder[j]? = some q → run.matrix.entry q p = false := by
  intro run
  have hplan := (Reduction.proceeds_steiner (G := G) .byGraph full).exists_addRows M
  obtain ⟨k, w, hexec, hk, htri, hfull⟩ :=
    (Reduction.steiner_byGraph_yields (F := False) hG full (w := Work.start M) hsize hM).exec_eq
  rw [Reduction.plan_eq, hexec] at hplan
  have hrun : run = ⟨w.matrix, c?.map (·.prepend (rowAdditions w.events)), w.events, .ok k⟩ := by
    have := reduce_steiner_eq hsize full .byGraph hc
    rw [Reduction.plan_eq, hexec] at this
    exact this
  rw [hrun]
  refine ⟨congrArg _ hk, hplan.2, hplan.1, ?_, hfull, ?_⟩
  · rw [← hsize]
    exact CouplingGraph.eliminationOrder_isPermutation hG
  · intro i p hi
    refine ⟨htri.diagonal p (List.mem_of_getElem? hi), ?_⟩
    intro j q hij hj
    obtain ⟨hi', rfl⟩ := List.getElem?_eq_some_iff.mp hi
    obtain ⟨hj', rfl⟩ := List.getElem?_eq_some_iff.mp hj
    exact List.pairwise_iff_getElem.mp htri.below i j hi' hj' hij

/-- Four qubits around qubit 1, one of them relabelled, and a circuit with a wire to spare. -/
theorem steiner_byGraph_succeeds_star :
    let G := CouplingGraph.assemble "star" 4 [1, 0, 2, 3] [(0, 1), (0, 2), (0, 3)] (by decide)
      (by simp [IsCoupling])
    let M := (((ParityMatrix.identity 4).addRow 0 2).addRow 2 3).addRow 3 0
    let c : Circuit := ⟨5, [], none⟩
    G.isConnected = true ∧ G.size = M.rows ∧ M.IsInvertible ∧
      ((Method.steiner true .byGraph).reduce (some G) M (some c)).outcome = .ok 4 ∧
      ((Method.steiner true .byGraph).reduce (some G) M (some c)).matrix =
        ParityMatrix.identity 4 := by
  intro G M c
  have hG : G.isConnected = true := by decide
  have hM : M.IsInvertible := ParityMatrix.isInvertible_iff.mpr ⟨by decide, by decide⟩
  have hc : ∀ d ∈ some c, M.rows ≤ d.qubits := by simp [c, M]
  obtain ⟨houtcome, _, _, _, hfull, _⟩ :=
    steiner_byGraph_succeeds hG rfl hM true hc
  exact ⟨hG, rfl, hM, houtcome, hfull rfl⟩

end Method

end CnotSynthesis
