import CnotSynthesis.Proofs.Graph.DepthFirst

/-! # The order of elimination is a depth-first order

* **`Visits next us seen finished seen'`** — a plain depth-first search: the vertices `us` are
  visited in turn, and `finished` lists what is found in the order in which it is left again.
  Nothing bounds how deep it goes.
* **`Visits.unique`** — the search has one outcome; **`visits_postOrder`** — `postOrder` is this
  outcome, so the depth to which it looks is never too small.
* **`CouplingGraph.eliminationOrder_suffixes`** — on a connected graph, however labelled, the order
  of elimination lists every qubit, ends in qubit 0, and stays connected as qubits are taken
  away. -/

namespace CnotSynthesis

variable {next : ℕ → List ℕ} {size : ℕ}

/-- **Plain depth-first search.** A vertex that was seen is skipped; any other one is marked as
seen, then its neighbours are visited, then it is finished. -/
inductive Visits (next : ℕ → List ℕ) : List ℕ → List ℕ → List ℕ → List ℕ → Prop
  | done (seen : List ℕ) : Visits next [] seen [] seen
  | skip {u : ℕ} {us seen finished seen' : List ℕ} (hu : u ∈ seen)
      (rest : Visits next us seen finished seen') : Visits next (u :: us) seen finished seen'
  | visit {u : ℕ} {us seen inner seen' outer seen'' : List ℕ} (hu : u ∉ seen)
      (below : Visits next (next u) (u :: seen) inner seen')
      (rest : Visits next us seen' outer seen'') :
      Visits next (u :: us) seen (inner ++ u :: outer) seen''

namespace Visits

/-- Visits to some vertices, then to others. -/
theorem append {us vs seen seen' seen'' new new' : List ℕ} (h : Visits next us seen new seen')
    (h' : Visits next vs seen' new' seen'') : Visits next (us ++ vs) seen (new ++ new') seen'' := by
  induction h with
  | done => exact h'
  | skip hu _ ih => exact .skip hu (ih h')
  | @visit u us seen inner seen' outer _ hu below _ _ ih =>
    rw [List.append_assoc]
    exact .visit hu below (ih h')

/-- **The search has one outcome.** -/
theorem unique {us seen finished finished' seen' seen'' : List ℕ}
    (h : Visits next us seen finished seen') (h' : Visits next us seen finished' seen'') :
    finished = finished' ∧ seen' = seen'' := by
  induction h generalizing finished' seen'' with
  | done =>
    cases h'
    exact ⟨rfl, rfl⟩
  | skip hu _ ih =>
    cases h' with
    | skip _ rest => exact ih rest
    | visit hnew => exact absurd hu hnew
  | visit hu _ _ ihbelow ihrest =>
    cases h' with
    | skip hseen => exact absurd hseen hu
    | visit _ below rest =>
      obtain ⟨rfl, rfl⟩ := ihbelow below
      obtain ⟨rfl, rfl⟩ := ihrest rest
      exact ⟨rfl, rfl⟩

end Visits

/-- The pair `s'` of seen and finished vertices is what visits to `us` make of `s`. -/
def VisitsTo (next : ℕ → List ℕ) (us : List ℕ) (s s' : List ℕ × List ℕ) : Prop :=
  ∃ new, s'.2 = s.2 ++ new ∧ Visits next us s.1 new s'.1

/-- Bounded visits to several vertices, one after the other. -/
theorem visitsTo_foldl (hlt : ∀ v u, u ∈ next v → u < size) {fuel : ℕ}
    (hvisit : ∀ v s, v < size → SeenIn size s.1 → size + 1 ≤ fuel + s.1.length →
      VisitsTo next [v] s (finishFrom next fuel v s)) (us : List ℕ) :
    ∀ s : List ℕ × List ℕ, (∀ u ∈ us, u < size) → SeenIn size s.1 →
      size + 1 ≤ fuel + s.1.length →
      VisitsTo next us s (us.foldl (fun s u => finishFrom next fuel u s) s) := by
  induction us with
  | nil => exact fun s _ _ _ => ⟨[], (List.append_nil _).symm, .done _⟩
  | cons u us ih =>
    intro s hus hseen hfuel
    have hu := hus u List.mem_cons_self
    -- what was seen only grows, so the bound does for the other vertices too
    obtain ⟨hseen', _, hfinishes, _⟩ := finishFrom_spec hlt fuel u s hu hseen hfuel
    have hlength := hfinishes.perm.length_eq
    rw [List.length_append] at hlength
    obtain ⟨new, hnew, hvisits⟩ := hvisit u s hu hseen hfuel
    obtain ⟨new', hnew', hvisits'⟩ := ih (finishFrom next fuel u s)
      (fun x hx => hus x (List.mem_cons_of_mem _ hx)) hseen' (by omega)
    refine ⟨new ++ new', ?_, hvisits.append hvisits'⟩
    rw [List.foldl_cons, hnew', hnew, List.append_assoc]

/-- **A bounded visit is a plain one**, as long as the bound exceeds the number of vertices not yet
seen. -/
theorem visitsTo_finishFrom (hlt : ∀ v u, u ∈ next v → u < size) (fuel : ℕ) :
    ∀ (v : ℕ) (s : List ℕ × List ℕ), v < size → SeenIn size s.1 → size + 1 ≤ fuel + s.1.length →
      VisitsTo next [v] s (finishFrom next fuel v s) := by
  induction fuel with
  | zero =>
    intro v s _ hseen hfuel
    have := hseen.length_le
    omega
  | succ fuel ih =>
    rintro v ⟨seen, finished⟩ hv hseen hfuel
    unfold finishFrom
    split
    · next hmem =>
      exact ⟨[], (List.append_nil _).symm, .skip (List.contains_iff_mem.mp hmem) (.done _)⟩
    · next hmem =>
      rw [List.contains_iff_mem] at hmem
      have hseen' : SeenIn size (v :: seen) :=
        ⟨List.nodup_cons.mpr ⟨hmem, hseen.1⟩, List.forall_mem_cons.mpr ⟨hv, hseen.2⟩⟩
      obtain ⟨new, hnew, hvisits⟩ := visitsTo_foldl hlt ih (next v) (v :: seen, finished)
        (fun u hu => hlt v u hu) hseen' (by simp only [List.length_cons] at hfuel ⊢; omega)
      refine ⟨new ++ [v], ?_, .visit hmem hvisits (.done _)⟩
      change ((next v).foldl (fun s u => finishFrom next fuel u s)
        (v :: seen, finished)).2 ++ [v] = _
      rw [hnew, List.append_assoc]

/-- **The order `postOrder` is that of a plain depth-first search.** -/
theorem visits_postOrder (hlt : ∀ v u, u ∈ next v → u < size) {v : ℕ} (hv : v < size) :
    ∃ seen, Visits next [v] [] (postOrder next size v) seen := by
  obtain ⟨new, hnew, hvisits⟩ := visitsTo_finishFrom hlt (size + 1) v ([], []) hv
    ⟨List.nodup_nil, by simp⟩ (by simp)
  rw [List.nil_append] at hnew
  exact ⟨_, hnew ▸ hvisits⟩

namespace CouplingGraph

variable {G : CouplingGraph}

/-- **The order of elimination of a connected graph**, however its qubits sit on the vertices. It
lists every qubit once and ends in qubit 0. Whatever part of it comes last, if it is not empty, is a
connected graph. It is the order in which a plain depth-first search from the vertex of qubit 0,
which takes neighbours by ascending vertex, leaves the vertices. -/
theorem eliminationOrder_suffixes (h : G.isConnected = true) :
    IsPermutation G.eliminationOrder G.size ∧
      (0 < G.size → G.eliminationOrder.getLast? = some 0) ∧
      (∀ front rest, G.eliminationOrder = front ++ rest → rest ≠ [] →
        (G.toSimpleGraph.induce {q | q ∈ rest}).Connected) ∧
      (0 < G.size →
        (∃ order seen, Visits (coupledTo G.size G.edges) [G.vertexOf 0] [] order seen) ∧
        ∀ order seen, Visits (coupledTo G.size G.edges) [G.vertexOf 0] [] order seen →
          G.eliminationOrder = order.map (G.qubits.getD · 0)) := by
  refine ⟨eliminationOrder_isPermutation h, ?_, ?_, ?_⟩
  · intro hpos
    obtain ⟨front, horder, _⟩ := eliminationOrder_spec h hpos
    rw [horder, List.getLast?_concat]
  · intro front rest heq hne
    obtain ⟨q, hq⟩ := List.exists_mem_of_ne_nil rest hne
    have : Nonempty {q | q ∈ rest} := ⟨q, hq⟩
    exact ⟨connectedOn_suffix h heq⟩
  · intro hpos
    have hnext : ∀ v u, u ∈ coupledTo G.size G.edges v → u < G.size := fun v u hu =>
      List.mem_range.mp (List.mem_filter.mp hu).1
    have hv : G.vertexOf 0 < G.size := G.labelling_perm.getD_lt hpos
    obtain ⟨seen, hvisits⟩ := visits_postOrder hnext hv
    refine ⟨⟨_, seen, hvisits⟩, ?_⟩
    intro order seen' hvisits'
    rw [eliminationOrder_eq_map hpos, (hvisits.unique hvisits').1]

/-- Five qubits on a ring with a chord, qubit 0 on vertex 3. The search goes from vertex 3 by 0 to
1, from there to 2 and to 4, so it leaves 2, 4, 1, 0 and 3 in this order. -/
theorem eliminationOrder_suffixes_ring :
    let G := assemble "ring" 5 [3, 0, 4, 2, 1] [(0, 1), (1, 2), (2, 3), (3, 0), (1, 4)] (by decide)
      (by simp [IsCoupling])
    G.isConnected = true ∧ G.eliminationOrder = [3, 2, 4, 1, 0] ∧
      (G.toSimpleGraph.induce {q | q ∈ [4, 1, 0]}).Connected ∧
      ∀ order seen, Visits (coupledTo G.size G.edges) [3] [] order seen →
        G.eliminationOrder = order.map (G.qubits.getD · 0) := by
  intro G
  have hG : G.isConnected = true := by decide
  have horder : G.eliminationOrder = [3, 2, 4, 1, 0] := by decide
  obtain ⟨_, _, hsuffix, hvisits⟩ := eliminationOrder_suffixes hG
  exact ⟨hG, horder, hsuffix [3, 2] [4, 1, 0] horder (by decide), (hvisits (by decide)).2⟩

end CouplingGraph

end CnotSynthesis
