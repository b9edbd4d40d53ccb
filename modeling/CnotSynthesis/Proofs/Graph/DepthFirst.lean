import CnotSynthesis.Proofs.Graph.Connectivity
import CnotSynthesis.Proofs.Permutation

/-! # Depth-first order

* **`HangsOn next v xs`** — every element of `xs` is a neighbour of a later one or of `v`.
* **`finishFrom_spec`** — a depth-first walk finishes every vertex it finds, each hanging on the
  ones finished after it, and leaves no neighbour out.
* **`CouplingGraph.eliminationOrder_isPermutation`**, **`CouplingGraph.connectedOn_suffix`** — on a
  connected graph the order of elimination lists every qubit, and every final part of it is
  connected. -/

namespace CnotSynthesis

variable {next : ℕ → List ℕ} {size : ℕ}

/-- Every element is a neighbour of a later one or of `v`. -/
def HangsOn (next : ℕ → List ℕ) (v : ℕ) : List ℕ → Prop
  | [] => True
  | x :: rest => (∃ y ∈ rest ++ [v], x ∈ next y) ∧ HangsOn next v rest

/-- Two lists that hang on a vertex hang on it together. -/
theorem HangsOn.append {v : ℕ} {xs ys : List ℕ} (hx : HangsOn next v xs)
    (hy : HangsOn next v ys) : HangsOn next v (xs ++ ys) := by
  induction xs with
  | nil => exact hy
  | cons x xs ih =>
    obtain ⟨⟨y, hmem, hxy⟩, hrest⟩ := hx
    refine ⟨⟨y, ?_, hxy⟩, ih hrest⟩
    change y ∈ (xs ++ ys) ++ [v]
    simp only [List.mem_append] at hmem ⊢
    tauto

/-- What hangs on a neighbour of `v`, and the neighbour itself, hang on `v`. -/
theorem HangsOn.concat {u v : ℕ} {xs : List ℕ} (hx : HangsOn next u xs) (huv : u ∈ next v) :
    HangsOn next v (xs ++ [u]) := by
  induction xs with
  | nil => exact ⟨⟨v, by simp, huv⟩, trivial⟩
  | cons x xs ih =>
    obtain ⟨⟨y, hmem, hxy⟩, hrest⟩ := hx
    exact ⟨⟨y, List.mem_append_left _ hmem, hxy⟩, ih hrest⟩

/-! ## The walk -/

/-- **A part of the walk** from the state `s` to `s'` that finishes `new`: these join the vertices
seen, and their neighbours are seen. -/
structure Finishes (next : ℕ → List ℕ) (s s' : List ℕ × List ℕ) (new : List ℕ) : Prop where
  finished : s'.2 = s.2 ++ new
  perm : s'.1.Perm (new ++ s.1)
  closed : ∀ x ∈ new, ∀ y ∈ next x, y ∈ s'.1

/-- Nothing visited, nothing finished. -/
theorem Finishes.refl (s : List ℕ × List ℕ) : Finishes next s s [] where
  finished := (List.append_nil _).symm
  perm := List.Perm.refl _
  closed := by simp

/-- What was seen stays seen. -/
theorem Finishes.mem {s s' : List ℕ × List ℕ} {new : List ℕ} (h : Finishes next s s' new) {x : ℕ}
    (hx : x ∈ s.1) : x ∈ s'.1 := h.perm.mem_iff.mpr (List.mem_append_right _ hx)

/-- Visits one after the other. -/
theorem Finishes.trans {s s' s'' : List ℕ × List ℕ} {new new' : List ℕ}
    (h : Finishes next s s' new) (h' : Finishes next s' s'' new') :
    Finishes next s s'' (new ++ new') where
  finished := by rw [h'.finished, h.finished, List.append_assoc]
  perm := by
    calc s''.1.Perm (new' ++ s'.1) := h'.perm
      _ |>.Perm (new' ++ (new ++ s.1)) := h.perm.append_left new'
      _ |>.Perm ((new ++ new') ++ s.1) := by
        rw [← List.append_assoc]
        exact List.perm_append_comm.append_right s.1
  closed := by
    intro x hx y hy
    rcases List.mem_append.mp hx with hx | hx
    · exact h'.mem (h.closed x hx y hy)
    · exact h'.closed x hx y hy

/-- The vertices seen are distinct and of the graph. -/
def SeenIn (size : ℕ) (seen : List ℕ) : Prop := seen.Nodup ∧ ∀ x ∈ seen, x < size

/-- There are no more vertices seen than there are. -/
theorem SeenIn.length_le {seen : List ℕ} (h : SeenIn size seen) : seen.length ≤ size := by
  have hsub : seen ⊆ List.range size := fun x hx => List.mem_range.mpr (h.2 x hx)
  simpa using (List.subperm_of_subset h.1 hsub).length_le

/-- **What a visit finishes**: nothing, at a vertex that was seen; else what hangs on the vertex,
then the vertex. -/
def VisitSpec (next : ℕ → List ℕ) (size v : ℕ) (s s' : List ℕ × List ℕ) : Prop :=
  SeenIn size s'.1 ∧ ∃ new, Finishes next s s' new ∧
    (v ∈ s.1 ∧ new = [] ∨ ∃ front, new = front ++ [v] ∧ HangsOn next v front)

/-- A vertex that was visited has been seen. -/
theorem VisitSpec.mem {v : ℕ} {s s' : List ℕ × List ℕ} (h : VisitSpec next size v s s') :
    v ∈ s'.1 := by
  obtain ⟨_, new, hfin, ⟨hv, _⟩ | ⟨front, rfl, _⟩⟩ := h
  · exact hfin.mem hv
  · exact hfin.perm.mem_iff.mpr (by simp)

/-- Visits to neighbours of `v`, one after the other. -/
theorem foldl_visit {v : ℕ} {visit : ℕ → List ℕ × List ℕ → List ℕ × List ℕ} {bound : ℕ}
    (hvisit : ∀ u s, u ∈ next v → SeenIn size s.1 → bound ≤ s.1.length →
      VisitSpec next size u s (visit u s)) :
    ∀ (us : List ℕ) (s : List ℕ × List ℕ), (∀ u ∈ us, u ∈ next v) → SeenIn size s.1 →
      bound ≤ s.1.length →
      SeenIn size (us.foldl (fun s u => visit u s) s).1 ∧ ∃ new,
        Finishes next s (us.foldl (fun s u => visit u s) s) new ∧ HangsOn next v new ∧
        ∀ u ∈ us, u ∈ (us.foldl (fun s u => visit u s) s).1 := by
  intro us
  induction us with
  | nil => exact fun s _ hseen _ => ⟨hseen, [], Finishes.refl s, trivial, by simp⟩
  | cons u us ih =>
    intro s hus hseen hbound
    have hu := hus u List.mem_cons_self
    have hfirst := hvisit u s hu hseen hbound
    obtain ⟨hseen', new, hfin, hnew⟩ := hfirst
    have hbound' : bound ≤ (visit u s).1.length := by
      have := hfin.perm.length_eq
      rw [List.length_append] at this
      omega
    obtain ⟨hseen'', new', hfin', hhangs', hmem'⟩ :=
      ih (visit u s) (fun x hx => hus x (List.mem_cons_of_mem _ hx)) hseen' hbound'
    refine ⟨hseen'', new ++ new', hfin.trans hfin', ?_, ?_⟩
    · refine HangsOn.append ?_ hhangs'
      rcases hnew with ⟨_, rfl⟩ | ⟨front, rfl, hhangs⟩
      · exact trivial
      · exact hhangs.concat hu
    · intro x hx
      rcases List.mem_cons.mp hx with rfl | hx
      · exact hfin'.mem (hvisit x s hu hseen hbound).mem
      · exact hmem' x hx

/-- **A depth-first visit**, with fuel for the vertices not yet seen. -/
theorem finishFrom_spec (hlt : ∀ v u, u ∈ next v → u < size) (fuel : ℕ) :
    ∀ (v : ℕ) (s : List ℕ × List ℕ), v < size → SeenIn size s.1 → size + 1 ≤ fuel + s.1.length →
      VisitSpec next size v s (finishFrom next fuel v s) := by
  induction fuel with
  | zero =>
    intro v s _ hseen hfuel
    have := hseen.length_le
    omega
  | succ fuel ih =>
    rintro v ⟨seen, finished⟩ hv hseen hfuel
    unfold finishFrom
    split
    · next hmem =>
      rw [List.contains_iff_mem] at hmem
      exact ⟨hseen, [], Finishes.refl _, .inl ⟨hmem, rfl⟩⟩
    · next hmem =>
      rw [List.contains_iff_mem] at hmem
      have hseen' : SeenIn size (v :: seen) := by
        refine ⟨List.nodup_cons.mpr ⟨hmem, hseen.1⟩, ?_⟩
        intro x hx
        rcases List.mem_cons.mp hx with rfl | hx
        · exact hv
        · exact hseen.2 x hx
      -- every visit to a neighbour starts with one more vertex seen
      have hvisit : ∀ u s, u ∈ next v → SeenIn size s.1 → seen.length + 1 ≤ s.1.length →
          VisitSpec next size u s (finishFrom next fuel u s) := by
        intro u s hu hs hbound
        exact ih u s (hlt v u hu) hs (by simp only at hfuel; omega)
      obtain ⟨hseen'', new, hfin, hhangs, hall⟩ :=
        foldl_visit hvisit (next v) (v :: seen, finished) (fun _ hu => hu) hseen' le_rfl
      generalize (next v).foldl (fun s u => finishFrom next fuel u s) (v :: seen, finished) = s at *
      obtain ⟨seen'', finished''⟩ := s
      refine ⟨hseen'', new ++ [v], ⟨?_, ?_, ?_⟩, .inr ⟨new, rfl, hhangs⟩⟩
      · have hfinished : finished'' = finished ++ new := hfin.finished
        change finished'' ++ [v] = finished ++ (new ++ [v])
        rw [hfinished, List.append_assoc]
      · rw [List.append_assoc]
        exact hfin.perm
      · intro x hx y hy
        rcases List.mem_append.mp hx with hx | hx
        · exact hfin.closed x hx y hy
        · rw [List.mem_singleton.mp hx] at hy
          exact hall y hy

/-- **The depth-first order from `v`**: distinct vertices, `v` last, everything else hanging on
later ones, and with every vertex its neighbours. -/
theorem postOrder_spec (hlt : ∀ v u, u ∈ next v → u < size) {v : ℕ} (hv : v < size) :
    ∃ front, postOrder next size v = front ++ [v] ∧ HangsOn next v front ∧
      SeenIn size (front ++ [v]) ∧ ∀ x ∈ front ++ [v], ∀ y ∈ next x, y ∈ front ++ [v] := by
  have hspec := finishFrom_spec hlt (size + 1) v ([], []) hv ⟨List.nodup_nil, by simp⟩ (by simp)
  obtain ⟨hseen, new, hfin, ⟨hmem, _⟩ | ⟨front, rfl, hhangs⟩⟩ := hspec
  · cases hmem
  · have hperm := hfin.perm
    rw [List.append_nil] at hperm
    refine ⟨front, hfin.finished, hhangs, ⟨hperm.nodup_iff.mp hseen.1, ?_⟩, ?_⟩
    · exact fun x hx => hseen.2 x (hperm.mem_iff.mpr hx)
    · exact fun x hx y hy => hperm.mem_iff.mp (hfin.closed x hx y hy)

/-! ## The order of elimination -/

namespace CouplingGraph

variable {G : CouplingGraph}

/-- Couplings of qubits are couplings of their vertices. -/
theorem mem_coupledTo_iff {u w : ℕ} (hu : u < G.size) :
    w ∈ coupledTo G.size G.edges u ↔ G.hasEdge (G.qubits.getD u 0) (G.qubits.getD w 0) = true ∧
      w < G.size := by
  have hperm := G.labelling_perm
  unfold coupledTo areCoupled
  rw [List.mem_filter, List.mem_range, List.contains_iff_mem, hasEdge_iff]
  unfold vertexOf qubits
  constructor
  · rintro ⟨hw, hcoupled⟩
    rw [hperm.getD_getD_inverse hu, hperm.getD_getD_inverse hw]
    exact ⟨⟨hperm.inverse.getD_lt hu, hperm.inverse.getD_lt hw, hcoupled⟩, hw⟩
  · rintro ⟨⟨_, _, hcoupled⟩, hw⟩
    rw [hperm.getD_getD_inverse hu, hperm.getD_getD_inverse hw] at hcoupled
    exact ⟨hw, hcoupled⟩

/-- What hangs on a vertex keeps hanging when vertices are read as qubits. -/
theorem hangsOn_map {v : ℕ} (hv : v < G.size) {xs : List ℕ} (hxs : ∀ x ∈ xs, x < G.size)
    (h : HangsOn (coupledTo G.size G.edges) v xs) :
    HangsOn G.neighbors (G.qubits.getD v 0) (xs.map fun u => G.qubits.getD u 0) := by
  induction xs with
  | nil => exact trivial
  | cons x xs ih =>
    obtain ⟨⟨y, hy, hxy⟩, hrest⟩ := h
    have hylt : y < G.size := by
      rcases List.mem_append.mp hy with hy | hy
      · exact hxs y (List.mem_cons_of_mem _ hy)
      · rw [List.mem_singleton.mp hy]
        exact hv
    refine ⟨⟨G.qubits.getD y 0, ?_, ?_⟩, ih (fun z hz => hxs z (List.mem_cons_of_mem _ hz)) hrest⟩
    · have := List.mem_map_of_mem (f := fun u => G.qubits.getD u 0) hy
      rwa [List.map_append] at this
    · exact mem_neighbors.mpr ((mem_coupledTo_iff hylt).mp hxy).1

/-- The order of elimination is read off the depth-first order from the vertex of qubit 0. -/
theorem eliminationOrder_eq_map (hpos : 0 < G.size) : G.eliminationOrder =
    (postOrder (coupledTo G.size G.edges) G.size (G.vertexOf 0)).map (G.qubits.getD · 0) := by
  rw [G.eliminationOrder_eq]
  unfold finishOrder vertexOf qubits
  cases hlabelling : G.labelling with
  | nil =>
    have hlength := G.labelling_perm.length_eq
    rw [hlabelling, List.length_nil] at hlength
    omega
  | cons v rest => rfl

/-- **The order of elimination of a connected graph** lists every qubit once, each of them, except
for qubit 0 at the end, before one that it is coupled to. -/
theorem eliminationOrder_spec (h : G.isConnected = true) (hpos : 0 < G.size) :
    ∃ front, G.eliminationOrder = front ++ [0] ∧ HangsOn G.neighbors 0 front ∧
      IsPermutation G.eliminationOrder G.size := by
  have hperm := G.labelling_perm
  have hnext : ∀ v u, u ∈ coupledTo G.size G.edges v → u < G.size := fun v u hu =>
    List.mem_range.mp (List.mem_filter.mp hu).1
  have hv : G.vertexOf 0 < G.size := hperm.getD_lt hpos
  obtain ⟨front, horder, hhangs, hseen, hclosed⟩ := postOrder_spec hnext hv
  have heq := eliminationOrder_eq_map hpos
  rw [horder] at heq
  have hlast : G.qubits.getD (G.vertexOf 0) 0 = 0 := hperm.getD_inverse hpos
  refine ⟨front.map fun u => G.qubits.getD u 0, ?_, ?_, ?_⟩
  · rw [heq, List.map_append, List.map_singleton, hlast]
  · have := hangsOn_map hv (fun x hx => hseen.2 x (List.mem_append_left _ hx)) hhangs
    rwa [hlast] at this
  · -- the vertices listed are closed under couplings, so all qubits are among them
    have hall : ∀ q, q < G.size → G.vertexOf q ∈ front ++ [G.vertexOf 0] := by
      intro q hq
      have hpath := connectedOn_iff.mp (isConnected_iff.mp h) 0 hpos q hq
      clear hq
      induction hpath with
      | refl => simp
      | @tail a b _ hedge ih =>
        obtain ⟨ha, hb⟩ := lt_of_hasEdge hedge.2
        have hqubit : ∀ c, c < G.size → G.qubits.getD (G.vertexOf c) 0 = c := fun c hc =>
          hperm.getD_inverse hc
        have hva : G.vertexOf a < G.size := hperm.getD_lt ha
        refine hclosed _ ih _ ((mem_coupledTo_iff hva).mpr ⟨?_, hperm.getD_lt hb⟩)
        rw [hqubit a ha, hqubit b hb]
        exact hedge.2
    have hnodup : G.eliminationOrder.Nodup := by
      rw [heq]
      refine hseen.1.map_on ?_
      intro x hx y hy hxy
      exact hperm.inverse.getD_inj (hseen.2 x hx) (hseen.2 y hy) hxy
    have hlt : ∀ q ∈ G.eliminationOrder, q < G.size := by
      intro q hq
      rw [heq] at hq
      obtain ⟨u, hu, rfl⟩ := List.mem_map.mp hq
      exact hperm.inverse.getD_lt (hseen.2 u hu)
    refine ⟨?_, hlt, hnodup⟩
    have hsub : List.range G.size ⊆ G.eliminationOrder := by
      intro q hq
      have hq := List.mem_range.mp hq
      rw [heq]
      exact List.mem_map.mpr ⟨G.vertexOf q, hall q hq, hperm.getD_inverse hq⟩
    have hsub' : G.eliminationOrder ⊆ List.range G.size := fun q hq => List.mem_range.mpr (hlt q hq)
    refine le_antisymm ?_ ?_
    · simpa using (List.subperm_of_subset hnodup hsub').length_le
    · simpa using (List.subperm_of_subset List.nodup_range hsub).length_le

/-- **The order of elimination of a connected graph lists every qubit.** -/
theorem eliminationOrder_isPermutation (h : G.isConnected = true) :
    IsPermutation G.eliminationOrder G.size := by
  rcases Nat.eq_zero_or_pos G.size with hzero | hpos
  · have hnil : G.labelling = [] := List.eq_nil_of_length_eq_zero
      (G.labelling_perm.length_eq.trans hzero)
    rw [G.eliminationOrder_eq, hnil, hzero]
    exact isPermutation_range 0
  · obtain ⟨_, _, _, hperm⟩ := eliminationOrder_spec h hpos
    exact hperm

/-- What hangs on a vertex is connected with it. -/
theorem connectedOn_of_hangsOn {last : ℕ} {xs : List ℕ} (h : HangsOn G.neighbors last xs) :
    G.ConnectedOn {q | q ∈ xs ++ [last]} := by
  induction xs with
  | nil =>
    have hset : {q | q ∈ [] ++ [last]} = ({last} : Set ℕ) := by
      ext q
      simp
    rw [hset]
    exact connectedOn_singleton last
  | cons x xs ih =>
    obtain ⟨⟨y, hy, hxy⟩, hrest⟩ := h
    have hset : {q | q ∈ (x :: xs) ++ [last]} = insert x {q | q ∈ xs ++ [last]} := by
      ext q
      simp
    rw [hset]
    exact (ih hrest).insert hy ((G.hasEdge_comm x y).trans (mem_neighbors.mp hxy))

/-- **Every final part of the order of elimination is connected.** -/
theorem connectedOn_suffix (h : G.isConnected = true) {front rest : List ℕ}
    (heq : G.eliminationOrder = front ++ rest) : G.ConnectedOn {q | q ∈ rest} := by
  have hempty : G.ConnectedOn {q | q ∈ ([] : List ℕ)} := by
    refine connectedOn_iff.mpr ?_
    intro a ha
    cases ha
  rcases Nat.eq_zero_or_pos G.size with hzero | hpos
  · have hlen := (eliminationOrder_isPermutation h).length_eq
    rw [heq, hzero, List.length_append] at hlen
    have hnil : rest = [] := List.eq_nil_of_length_eq_zero (by omega)
    rw [hnil]
    exact hempty
  · obtain ⟨all, horder, hhangs, _⟩ := eliminationOrder_spec h hpos
    rw [horder] at heq
    -- the part is empty or ends in qubit 0
    rcases List.append_eq_append_iff.mp heq with ⟨mid, hfront, hlast⟩ | ⟨mid, hall, hrest⟩
    · rcases List.append_eq_singleton_iff.mp hlast.symm with ⟨_, hrest⟩ | ⟨_, hrest⟩
      · rw [hrest]
        have hset : {q | q ∈ [0]} = ({0} : Set ℕ) := by
          ext q
          simp
        rw [hset]
        exact connectedOn_singleton 0
      · rw [hrest]
        exact hempty
    · rw [hrest]
      refine connectedOn_of_hangsOn ?_
      rw [hall] at hhangs
      clear hall heq
      induction front with
      | nil => exact hhangs
      | cons x front ih => exact ih hhangs.2

end CouplingGraph

end CnotSynthesis
