import CnotSynthesis.Elimination.BestFirst
import CnotSynthesis.Proofs.Elimination.Vertex

/-! # Best-first vertex elimination

Whichever prospect is taken further, and whichever pairs are tried, every prospect is a partial
elimination, so what the search ends with are row additions that lead to a permutation matrix. It
cannot fail if the strategy guides and the graph is connected.

* **`Gives`** — a checked result has a given property, or it is an error, and then `F` holds.
* **`pairsTried_spec`** — with a strategy that guides, some pair is tried, and every pair tried can
  be set aside.
* **`Prospect.Sound`** — the prospect comes from the matrix and fits the graph.
* **`bestFirst_gives`** — what the search finds.
* **`Reduction.rowCol_yields`**, **`Reduction.permRowCol_yields`** — the two vertex eliminations of
  an invertible matrix. -/

namespace CnotSynthesis

open Work ParityMatrix

/-! ## Checked results -/

/-- **The triple of a checked result**: it has the property `Q`, or it is an error, and then `F`
holds. -/
def Gives {α : Type} (F : Prop) (x : Except SynthesisError α) (Q : α → Prop) : Prop :=
  match x with
  | .ok a => Q a
  | .error _ => F

/-- One computation after the other. -/
theorem Gives.bind {α β : Type} {F : Prop} {x : Except SynthesisError α} {Q : α → Prop}
    {f : α → Except SynthesisError β} {R : β → Prop} (h : Gives F x Q)
    (hf : ∀ a, Q a → Gives F (f a) R) : Gives F (x >>= f) R := by
  cases x with
  | error e => exact h
  | ok a => exact hf a h

/-- A result that cannot be an error is there. -/
theorem Gives.exists_ok {α : Type} {F : Prop} {x : Except SynthesisError α} {Q : α → Prop}
    (h : Gives F x Q) (hF : ¬ F) : ∃ a, x = .ok a ∧ Q a := by
  cases x with
  | error e => exact absurd h hF
  | ok a => exact ⟨a, rfl, h⟩

variable {G : CouplingGraph} {choose : PairStrategy} {F : Prop}

/-! ## The pairs tried -/

/-- The pairs by weight are made of a candidate and a remaining column. -/
theorem mem_pairsByWeight {M : ParityMatrix} {p : Remaining} {candidates : List ℕ} {pair : ℕ × ℕ}
    (h : pair ∈ pairsByWeight M p candidates) : pair.1 ∈ candidates ∧ pair.2 ∈ p.columns := by
  unfold pairsByWeight at h
  obtain ⟨⟨_, row, column⟩, hmem, rfl⟩ := List.mem_map.mp h
  obtain ⟨row', hrow, hmem⟩ := List.mem_flatMap.mp (mem_sortDistinct.mp hmem)
  obtain ⟨column', hcolumn, heq⟩ := List.mem_map.mp hmem
  cases heq
  exact ⟨hrow, (List.mem_filter.mp hcolumn).1⟩

/-- **The pairs tried** from a partial elimination: there is one, and each can be set aside. -/
theorem pairsTried_spec (hguides : choose.Guides G fun _ => True) (width : ℕ) {M : ParityMatrix}
    {p : Remaining} (h : p.Fits G M) (hconnected : p.Connected G) (hlength : 1 < p.rows.length) :
    pairsTried G choose width M p ≠ [] ∧ ∀ pair ∈ pairsTried G choose width M p,
      pair.1 ∈ G.removable p.rows ∧ pair.2 ∈ p.columns := by
  obtain ⟨row, column, hpair, hrow, hcolumn⟩ := hguides h hconnected trivial hlength
  unfold pairsTried
  dsimp only
  rw [hpair]
  constructor
  · rw [Option.toList_some, List.singleton_append,
      show max width 1 = (max width 1 - 1) + 1 by omega,
      List.take_succ_cons]
    exact List.cons_ne_nil _ _
  · intro pair hmem
    rcases List.mem_append.mp (List.mem_of_mem_take hmem) with hmem | hmem
    · rw [Option.toList_some, List.mem_singleton] at hmem
      rw [hmem]
      exact ⟨hrow, hcolumn⟩
    · exact mem_pairsByWeight (List.mem_filter.mp hmem).1

/-! ## Prospects -/

/-- A prospect that came from `M`, and that can be taken further unless `F`. -/
structure Prospect.Sound (F : Prop) (G : CouplingGraph) (M : ParityMatrix) (p : Prospect) :
    Prop where
  coupled : p.CoupledFrom G M
  wires : p.circuit.qubits = G.size
  fits : p.remaining.Fits G p.matrix
  connected : ¬ F → p.remaining.Connected G

variable {M : ParityMatrix}

/-- The first prospect of an invertible matrix is sound. -/
theorem Prospect.sound_start (hM : M.IsInvertible) (hsize : G.size = M.rows)
    (hconnected : ¬ F → G.isConnected = true) : (Prospect.start M).Sound F G M :=
  ⟨coupledFrom_start G M, hsize.symm, .start hM hsize,
    fun hF => Remaining.connected_start hsize (hconnected hF)⟩

/-- A pair is not set aside only if it cannot be cleared. -/
theorem Prospect.child_error {p : Prospect} (hwires : p.circuit.qubits = G.size) {number : ℕ}
    {pair : ℕ × ℕ} {e : SynthesisError} (h : p.child G number pair = .error e) :
    ∃ w, (Reduction.clearPair G pair.1 pair.2 p.remaining).exec (.start p.matrix) =
      (.error e, w) := by
  unfold Prospect.child at h
  rw [advance_eq hwires (Reduction.proceeds_clearPair pair.1 pair.2 p.remaining)] at h
  rcases hexec : (Reduction.clearPair G pair.1 pair.2 p.remaining).exec (.start p.matrix) with
    ⟨_ | _, w⟩
  · rw [hexec] at h
    cases h
    exact ⟨w, rfl⟩
  · rw [hexec] at h
    cases h

/-- A prospect cannot be finished only if the elimination fails. -/
theorem Prospect.settle_error {p : Prospect} (hwires : p.circuit.qubits = G.size)
    {e : SynthesisError} (h : p.settle G choose = .error e) :
    ∃ w, (Reduction.eliminateAll G choose p.remaining).exec (.start p.matrix) = (.error e, w) := by
  unfold Prospect.settle at h
  rw [advance_eq hwires (Reduction.proceeds_eliminateAll choose p.remaining)] at h
  rcases hexec : (Reduction.eliminateAll G choose p.remaining).exec (.start p.matrix) with
    ⟨_ | _, w⟩
  · rw [hexec] at h
    cases h
    exact ⟨w, rfl⟩
  · rw [hexec] at h
    cases h

/-- Setting a pair aside. -/
theorem Prospect.Sound.child_gives {p : Prospect} (h : p.Sound F G M) (number : ℕ) {pair : ℕ × ℕ}
    (hpair : ¬ F → pair.1 ∈ G.removable p.remaining.rows ∧ pair.2 ∈ p.remaining.columns) :
    Gives F (p.child G number pair) (Prospect.Sound F G M) := by
  have hyields : Reduction.Yields F _ (.start p.matrix) _ :=
    Reduction.clearPair_yields (p := p.remaining) h.fits fun hnot =>
      Classical.byContradiction fun hF => hnot
        ⟨(h.fits.mem_removable (hpair hF).1 pair.2).1, (hpair hF).2, h.connected hF⟩
  cases hchild : p.child G number pair with
  | error e =>
    obtain ⟨w, hexec⟩ := Prospect.child_error h.wires hchild
    exact hyields.of_exec_error hexec
  | ok q =>
    obtain ⟨w, hexec, hmatrix, hcircuit, hremaining, _⟩ := Prospect.child_ok hchild
    obtain ⟨_, _, hfits⟩ := hyields.of_exec_ok hexec
    refine ⟨h.coupled.child hchild, ?_, ?_, fun hF => ?_⟩
    · rw [hcircuit]
      exact h.wires
    · rw [hremaining, hmatrix]
      exact hfits
    · rw [hremaining]
      exact (h.fits.mem_removable (hpair hF).1 pair.2).2

/-- Finishing: row additions that lead to a permutation matrix. -/
theorem Prospect.Sound.settle_gives {p : Prospect} (h : p.Sound F G M)
    (hguides : ¬ F → choose.Guides G fun _ => True) :
    Gives F (p.settle G choose) fun found => (M.addRows found.1).PlacesOnes found.2 := by
  have hyields := Reduction.eliminateAll_yields (w := .start p.matrix) choose.keeps_true hguides
    h.fits h.connected trivial
  cases hsettle : p.settle G choose with
  | error e =>
    obtain ⟨w, hexec⟩ := Prospect.settle_error h.wires hsettle
    exact hyields.of_exec_error hexec
  | ok found =>
    obtain ⟨ops, output⟩ := found
    obtain ⟨final, w, hexec, rfl, rfl⟩ := Prospect.settle_ok hsettle
    change (M.addRows (p.additions ++ rowAdditions w.events)).PlacesOnes final.output
    rw [← (h.coupled.settle hexec).2]
    exact (hyields.of_exec_ok hexec).1

/-- The offshoots of a sound prospect are sound, one for each pair. -/
theorem offshoots_gives {p : Prospect} (h : p.Sound F G M) (pairs : List (ℕ × ℕ)) :
    ∀ number, (¬ F → ∀ pair ∈ pairs, pair.1 ∈ G.removable p.remaining.rows ∧
      pair.2 ∈ p.remaining.columns) →
      Gives F (offshoots G p number pairs) fun children =>
        children.length = pairs.length ∧ ∀ q ∈ children, q.Sound F G M := by
  induction pairs with
  | nil => exact fun _ _ => ⟨rfl, by simp⟩
  | cons pair pairs ih =>
    intro number hpairs
    refine (h.child_gives number fun hF => hpairs hF pair List.mem_cons_self).bind ?_
    intro q hq
    refine (ih (number + 1) fun hF pair hpair =>
      hpairs hF pair (List.mem_cons_of_mem _ hpair)).bind ?_
    rintro children ⟨hlength, hall⟩
    exact ⟨by simp [hlength], List.forall_mem_cons.mpr ⟨hq, hall⟩⟩

/-! ## The search -/

/-- **The search**: with a strategy that guides it never runs out of prospects and never meets one
that fails. -/
theorem bestFirstFrom_gives (hguides : ¬ F → choose.Guides G fun _ => True) (width budget : ℕ) :
    ∀ (made : ℕ) (waiting : List Prospect), (¬ F → waiting ≠ []) →
      (∀ p ∈ waiting, p.Sound F G M) →
      Gives F (bestFirstFrom G choose width budget made waiting) fun found =>
        (M.addRows found.1).PlacesOnes found.2 := by
  induction budget with
  | zero =>
    intro made waiting hne hall
    unfold bestFirstFrom
    cases hp : leastBy Prospect.before waiting with
    | none =>
      refine Classical.byContradiction fun hF => ?_
      obtain ⟨p, hsome⟩ := exists_leastBy Prospect.before (hne hF)
      cases hp.symm.trans hsome
    | some p => exact (hall p (leastBy_mem hp)).settle_gives hguides
  | succ budget ih =>
    intro made waiting hne hall
    unfold bestFirstFrom
    cases hp : leastBy Prospect.before waiting with
    | none =>
      refine Classical.byContradiction fun hF => ?_
      obtain ⟨p, hsome⟩ := exists_leastBy Prospect.before (hne hF)
      cases hp.symm.trans hsome
    | some p =>
      have hsound := hall p (leastBy_mem hp)
      dsimp only
      split
      · exact hsound.settle_gives hguides
      · next hlong =>
        have htried := fun hF : ¬ F =>
          pairsTried_spec (hguides hF) width hsound.fits (hsound.connected hF) (by omega)
        refine (offshoots_gives hsound _ made fun hF => (htried hF).2).bind ?_
        rintro children ⟨hlength, hsounds⟩
        refine ih _ _ ?_ ?_
        · intro hF
          refine List.append_ne_nil_of_right_ne_nil _ (List.ne_nil_of_length_pos ?_)
          rw [hlength]
          exact List.length_pos_of_ne_nil (htried hF).1
        · intro q hq
          rcases List.mem_append.mp hq with hq | hq
          · exact hall q (List.mem_filter.mp hq).1
          · exact hsounds q hq

/-- **Best-first elimination** of an invertible matrix. -/
theorem bestFirst_gives (hguides : ¬ F → choose.Guides G fun _ => True) (settings : BestFirst)
    (hM : M.IsInvertible) (hsize : G.size = M.rows) (hconnected : ¬ F → G.isConnected = true) :
    Gives F (bestFirst G choose settings M) fun found =>
      (M.addRows found.1).PlacesOnes found.2 := by
  refine bestFirstFrom_gives hguides settings.width settings.budget 1 [Prospect.start M]
    (fun _ => List.cons_ne_nil _ _) ?_
  intro p hp
  rw [List.mem_singleton.mp hp]
  exact Prospect.sound_start hM hsize hconnected

/-! ## Eliminations of a whole matrix -/

namespace Reduction

variable {w : Work} {G? : Option CouplingGraph}

/-- An invertible matrix passes the check. -/
theorem requireInvertible_exec (hM : w.matrix.IsInvertible) :
    requireInvertible.exec w = (.ok w.matrix.rows, w) := by
  obtain ⟨hsquare, hrank⟩ := isInvertible_iff.mp hM
  have hsquare' : w.matrix.isSquare = true := beq_iff_eq.mpr hsquare.symm
  unfold requireInvertible
  rw [Script.exec_bind, exec_matrix]
  simp [hsquare', hrank]

/-- What follows the two checks of a vertex elimination. -/
theorem exec_checked {α : Type} {f : ℕ → CouplingGraph → Reduction α} (hM : w.matrix.IsInvertible)
    (hG : graphFor G? w.matrix.rows = .ok G) :
    (do let n ← requireInvertible; let G ← graphFor G? n; f n G : Reduction α).exec w =
      (f w.matrix.rows G).exec w := by
  rw [Script.exec_bind, requireInvertible_exec hM]
  dsimp only
  rw [hG]
  rfl

/-- What comes behind the checks, for a matrix and a graph that pass them. -/
theorem yields_checked {α : Type} {f : ℕ → CouplingGraph → Reduction α} {Q : α → Work → Prop}
    (hM : w.matrix.IsInvertible) (hG : graphFor G? w.matrix.rows = .ok G)
    (h : Yields F (f w.matrix.rows G) w Q) :
    Yields F (do let n ← requireInvertible; let G ← graphFor G? n; f n G) w Q := by
  unfold Yields at h ⊢
  rw [exec_checked hM hG]
  exact h

/-- A permutation matrix that keeps every number is the identity. -/
theorem eq_identity_of_tied {N : ParityMatrix} {p : Remaining} (h : N.PlacesOnes p.output)
    (htied : p.Tied) (hrows : p.rows = []) : N = identity N.rows := by
  refine ext_entry rfl h.square ?_
  intro r c hr hc
  rw [h.square] at hc
  have houtput : p.output.getD c 0 = c := by
    refine htied.output_eq c (by rw [h.perm.length_eq]; exact hc) ?_
    rw [htied.columns_eq, hrows]
    simp
  rw [h.entry r c hc, houtput, entry_identity, decide_eq_true hr, Bool.true_and]
  rfl

/-- **Vertex elimination with tied rows and columns** reduces to the identity. -/
theorem rowCol_yields (hM : w.matrix.IsInvertible) (hG : graphFor G? w.matrix.rows = .ok G)
    (hsize : G.size = w.matrix.rows) (hconnected : G.isConnected = true) :
    Yields F (rowCol G?) w fun k w' =>
      k = w.matrix.rows ∧ w'.matrix = identity w.matrix.rows := by
  refine yields_checked hM hG ?_
  have hsteps := proceeds_eliminateAll (G := G) tiedPair (Remaining.start w.matrix.rows)
  obtain ⟨p, w', hexec, hplaces, htied, hrows⟩ := (eliminateAll_yields (F := False)
    keeps_tiedPair (fun _ => guides_tiedPair G) (.start hM hsize)
    (fun _ => Remaining.connected_start hsize hconnected) (Remaining.tied_start _)).exec_eq
  have hrows' : w'.matrix.rows = w.matrix.rows := by
    have := (hsteps w).rows_eq
    rwa [hexec] at this
  unfold Yields
  rw [Script.exec_bind, hexec]
  refine ⟨rfl, ?_⟩
  rw [← hrows']
  exact eq_identity_of_tied hplaces htied hrows

/-- Notes leave the matrix alone. -/
theorem matrix_foldl_note {γ : Type} (e : γ → Event) (xs : List γ) (w : Work) :
    (xs.foldl (fun w x => w.note (e x)) w).matrix = w.matrix := by
  induction xs generalizing w with
  | nil => rfl
  | cons x xs ih => exact ih (w.note (e x))

/-- Row additions carried out on a work are carried out on its matrix. -/
theorem matrix_addRows (ops : List RowAddition) (w : Work) :
    (ops.foldl (fun w op => w.addRow op.target op.source) w).matrix = w.matrix.addRows ops := by
  induction ops generalizing w with
  | nil => rfl
  | cons op ops ih => exact ih (w.addRow op.target op.source)

/-- **Vertex elimination with rows and columns chosen apart**, greedy or best first, reduces to the
permutation matrix of its output. -/
theorem permRowCol_yields (hguides : ¬ F → choose.Guides G fun _ => True)
    (search : Option BestFirst) (hM : w.matrix.IsInvertible)
    (hG : graphFor G? w.matrix.rows = .ok G) (hsize : G.size = w.matrix.rows)
    (hconnected : ¬ F → G.isConnected = true) :
    Yields F (permRowCol choose search G?) w fun output w' => w'.matrix.PlacesOnes output := by
  refine yields_checked hM hG ?_
  cases search with
  | none =>
    refine (eliminateAll_yields choose.keeps_true hguides (.start hM hsize) ?_ trivial).bind ?_
    · exact fun hF => Remaining.connected_start hsize (hconnected hF)
    · exact fun _ _ h => yields_pure h.1
  | some settings =>
    have hgives := bestFirst_gives hguides settings hM hsize hconnected
    refine yields_matrix_bind ?_
    refine (yields_lift (Q := fun found w' =>
      (w.matrix.addRows found.1).PlacesOnes found.2 ∧ w' = w) ?_ ?_).bind ?_
    · intro e he
      rwa [he] at hgives
    · intro found hfound
      rw [hfound] at hgives
      exact ⟨hgives, rfl⟩
    rintro ⟨ops, output⟩ w' ⟨hplaces, hw'⟩
    rw [hw']
    refine yields_bind_of_exec (exec_addRows ops w) ?_
    refine yields_bind_of_exec (exec_reportPairs output.zipIdx _) ?_
    refine yields_pure ?_
    rw [matrix_foldl_note fun x : ℕ × ℕ => Event.vertex x.1 x.2, matrix_addRows]
    exact hplaces

end Reduction

end CnotSynthesis
