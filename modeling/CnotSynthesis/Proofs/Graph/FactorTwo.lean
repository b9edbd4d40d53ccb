import CnotSynthesis.Proofs.Graph.NearestTerminal

/-! # Steiner trees are at most twice as large as they need be

A connected subgraph has a tour through all its vertices that takes at most two steps for each edge.
While the tree grows, what is left of the tour hangs on it as loose threads, which meet all
terminals that are not attached yet. Attaching the nearest one shortens the threads by at least as
many steps as the tree grows by edges: a thread through it can be cut where it first meets an open
terminal, for no shorter walk leads there.

* **`exists_tour`** — a tour, vertex by vertex; **`CouplingGraph.exists_tour_subgraph`** — of a
  connected subgraph.
* **`Threads E N P k`** — walks along `E` that start in `N` and meet `P`, with `k` steps in all;
  **`Threads.attach`** — one branch, **`SteinerTree.Attached.threads`** — a whole tree.
* **`CouplingGraph.steinerTreeWith_factor_two`** — the bound. -/

namespace CnotSynthesis

variable {E : ℕ → ℕ → Prop} {N P : Set ℕ} {k : ℕ}

/-! ## Tours -/

/-- There and back: a step aside from a vertex of a walk. -/
theorem exists_detour {x y : ℕ} (hxy : E x y) (hyx : E y x) : ∀ {walk : List ℕ} {a : ℕ},
    (a :: walk).IsChain E → x ∈ a :: walk →
    ∃ walk' : List ℕ, (a :: walk').IsChain E ∧ walk'.length = walk.length + 2 ∧
      ∀ q, q ∈ a :: walk' ↔ q = y ∨ q ∈ a :: walk := by
  intro walk
  induction walk with
  | nil =>
    intro a _ hx
    obtain rfl := List.mem_singleton.mp hx
    refine ⟨[y, x], by simp [hxy, hyx], rfl, fun q => ?_⟩
    simp only [List.mem_cons]
    tauto
  | cons b walk ih =>
    intro a hchain hx
    obtain ⟨hab, hrest⟩ := List.isChain_cons_cons.mp hchain
    rcases List.mem_cons.mp hx with rfl | hx
    · refine ⟨y :: x :: b :: walk, by simpa [hxy, hyx] using hchain, rfl, fun q => ?_⟩
      simp only [List.mem_cons]
      tauto
    · obtain ⟨walk', hchain', hlength, hmem⟩ := ih hrest hx
      refine ⟨b :: walk', List.isChain_cons_cons.mpr ⟨hab, hchain'⟩, ?_, fun q => ?_⟩
      · simp [hlength]
      · rw [List.mem_cons, hmem, List.mem_cons (b := a)]
        tauto

/-- **A tour** of vertices that hang together: two steps for every vertex but the first. -/
theorem exists_tour (hsymm : ∀ a b, E a b → E b a) {V : Finset ℕ} {root : ℕ} (hroot : root ∈ V)
    (hgrow : ∀ C ⊂ V, root ∈ C → ∃ x ∈ C, ∃ y ∈ V, y ∉ C ∧ E x y) :
    ∃ walk : List ℕ, (root :: walk).IsChain E ∧ (∀ q ∈ V, q ∈ root :: walk) ∧
      walk.length + 2 = 2 * V.card := by
  -- vertex by vertex: `C` are those met so far
  have hpartial : ∀ m < V.card, ∃ C ⊆ V, ∃ walk : List ℕ, C.card = m + 1 ∧ root ∈ C ∧
      (root :: walk).IsChain E ∧ (∀ q, q ∈ C ↔ q ∈ root :: walk) ∧ walk.length = 2 * m := by
    intro m
    induction m with
    | zero =>
      intro _
      exact ⟨{root}, by simpa using hroot, [], by simp, by simp, by simp, by simp, rfl⟩
    | succ m ih =>
      intro hm
      obtain ⟨C, hC, walk, hcard, hrootC, hchain, hmem, hlength⟩ := ih (by omega)
      have hproper : C ⊂ V := by
        refine Finset.ssubset_iff_subset_ne.mpr ⟨hC, ?_⟩
        rintro rfl
        omega
      obtain ⟨x, hx, y, hy, hnew, hxy⟩ := hgrow C hproper hrootC
      obtain ⟨walk', hchain', hlength', hmem'⟩ :=
        exists_detour hxy (hsymm x y hxy) hchain ((hmem x).mp hx)
      refine ⟨insert y C, Finset.insert_subset hy hC, walk', ?_, Finset.mem_insert_of_mem hrootC,
        hchain', fun q => ?_, by omega⟩
      · rw [Finset.card_insert_of_notMem hnew, hcard]
      · rw [Finset.mem_insert, hmem, hmem']
  have hpos : 0 < V.card := Finset.card_pos.mpr ⟨root, hroot⟩
  obtain ⟨C, hC, walk, hcard, _, hchain, hmem, hlength⟩ := hpartial (V.card - 1) (by omega)
  obtain rfl : C = V := Finset.eq_of_subset_of_card_le hC (by omega)
  exact ⟨walk, hchain, fun q hq => (hmem q).mp hq, by omega⟩

/-! ## Threads -/

/-- **Threads**: walks along `E` that start in `N` and together meet `P`, with `k` steps in all. -/
inductive Threads (E : ℕ → ℕ → Prop) (N : Set ℕ) : Set ℕ → ℕ → Prop
  | none : Threads E N ∅ 0
  | thread {a walk P k} : a ∈ N → (a :: walk).IsChain E → Threads E N P k →
      Threads E N ({q | q ∈ a :: walk} ∪ P) (walk.length + k)

namespace Threads

/-- Threads through more nodes. -/
theorem mono (h : Threads E N P k) {N' : Set ℕ} (hN : N ⊆ N') : Threads E N' P k := by
  induction h with
  | none => exact .none
  | thread ha hchain _ ih => exact .thread (hN ha) hchain ih

/-- The first member of `Q` on a walk that meets `Q`. -/
theorem exists_first {Q : Set ℕ} {walk : List ℕ} {v : ℕ} (hv : v ∈ walk) (hQ : v ∈ Q) :
    ∃ before b after, walk = before ++ b :: after ∧ b ∈ Q ∧ ∀ q ∈ before, q ∉ Q := by
  induction walk with
  | nil => cases hv
  | cons a walk ih =>
    by_cases ha : a ∈ Q
    · exact ⟨[], a, walk, rfl, ha, by simp⟩
    · have hv : v ∈ walk := (List.mem_cons.mp hv).resolve_left fun heq => ha (heq ▸ hQ)
      obtain ⟨before, b, after, rfl, hb, hbefore⟩ := ih hv
      exact ⟨a :: before, b, after, rfl, hb, List.forall_mem_cons.mpr ⟨ha, hbefore⟩⟩

/-- **A thread is cut** where it first meets `Q`, and taken up again at `v`, forwards and backwards:
if no walk from `N` to `Q` is shorter than `d`, at least `d` steps are saved. -/
theorem cut (hsymm : ∀ a b, E a b → E b a) {Q : Set ℕ} {d : ℕ}
    (hd : ∀ {a b : ℕ} {walk : List ℕ}, a ∈ N → b ∈ Q → (walk ++ [b]).IsChain E →
      (walk ++ [b]).head? = some a → d ≤ walk.length)
    {a v : ℕ} {walk : List ℕ} (ha : a ∈ N) (hchain : (a :: walk).IsChain E)
    (hv : v ∈ a :: walk) (hQ : v ∈ Q) :
    ∃ back forth : List ℕ, (v :: back).IsChain E ∧ (v :: forth).IsChain E ∧
      back.length + forth.length + d ≤ walk.length ∧
      ∀ q ∈ a :: walk, q ∈ Q → q ∈ v :: back ∨ q ∈ v :: forth := by
  obtain ⟨before, b, after, hsplit, hb, hbefore⟩ := exists_first hv hQ
  have hvafter : v ∈ b :: after := by
    rw [hsplit] at hv
    exact (List.mem_append.mp hv).resolve_left fun hmem => hbefore v hmem hQ
  -- what comes from `b` on, on both sides of `v`
  obtain ⟨back, forth, hafter⟩ := List.append_of_mem hvafter
  have hwhole : a :: walk = before ++ (back ++ [v]) ++ forth := by simp [hsplit, hafter]
  have hlength : walk.length = before.length + back.length + forth.length := by
    have := congrArg List.length hwhole
    simp only [List.length_append, List.length_cons, List.length_nil] at this
    omega
  have hfirst : d ≤ before.length := by
    have hstart : a :: walk = before ++ [b] ++ after := by simp [hsplit]
    rw [hstart] at hchain
    refine hd ha hb hchain.left_of_append ?_
    have hhead := congrArg List.head? hstart
    rwa [List.head?_cons, List.head?_append_of_ne_nil _ (by simp), eq_comm] at hhead
  rw [hwhole] at hchain
  refine ⟨back.reverse, forth, ?_, ?_, ?_, ?_⟩
  · have hback : (back ++ [v]).IsChain E := hchain.left_of_append.right_of_append
    have hreverse : (back ++ [v]).reverse.IsChain E :=
      List.isChain_reverse.mpr (hback.imp fun x y => hsymm x y)
    rwa [List.reverse_append] at hreverse
  · rw [← List.append_assoc, List.append_assoc] at hchain
    exact hchain.right_of_append
  · rw [List.length_reverse]
    omega
  · intro q hq hqQ
    rw [hsplit, hafter] at hq
    have hq := (List.mem_append.mp hq).resolve_left fun hmem => hbefore q hmem hqQ
    refine (List.mem_append.mp hq).imp_left fun hmem => ?_
    exact List.mem_cons_of_mem v (List.mem_reverse.mpr hmem)

/-- **A vertex is attached**: the threads can be rearranged so that they may start there too, with
at least `d` steps less, and meet all of `Q` that they met before. -/
theorem attach (hsymm : ∀ a b, E a b → E b a) {Q : Set ℕ} {d v : ℕ}
    (hd : ∀ {a b : ℕ} {walk : List ℕ}, a ∈ N → b ∈ Q → (walk ++ [b]).IsChain E →
      (walk ++ [b]).head? = some a → d ≤ walk.length)
    (h : Threads E N P k) (hv : v ∈ P) (hQ : v ∈ Q) :
    ∃ P' k', Threads E (insert v N) P' k' ∧ k' + d ≤ k ∧ ∀ q ∈ P, q ∈ Q → q ∈ P' := by
  induction h with
  | none => cases hv
  | @thread a walk P k ha hchain hrest ih =>
    by_cases hmem : v ∈ a :: walk
    · -- the thread through `v` falls into two
      obtain ⟨back, forth, hback, hforth, hlength, hcover⟩ := cut hsymm hd ha hchain hmem hQ
      refine ⟨_, _, .thread (Set.mem_insert v N) hback (.thread (Set.mem_insert v N) hforth
        (hrest.mono (Set.subset_insert v N))), by omega, ?_⟩
      rintro q (hq | hq) hqQ
      · rcases hcover q hq hqQ with hq | hq
        · exact .inl hq
        · exact .inr (.inl hq)
      · exact .inr (.inr hq)
    · obtain ⟨P', k', hthreads, hle, hcover⟩ := ih (hv.resolve_left hmem)
      refine ⟨_, _, .thread (Set.mem_insert_of_mem v ha) hchain hthreads, by omega, ?_⟩
      rintro q (hq | hq) hqQ
      · exact .inl hq
      · exact .inr (hcover q hq hqQ)

end Threads

/-! ## Trees -/

/-- Two allowed qubits that are coupled. -/
def CouplingGraph.CoupledIn (G : CouplingGraph) (allowed : List ℕ) (a b : ℕ) : Prop :=
  a ∈ allowed ∧ b ∈ allowed ∧ G.hasEdge a b = true

namespace CouplingGraph

variable {G : CouplingGraph} {allowed terminals : List ℕ} {root : ℕ} {t : SteinerTree}

/-- Couplings have no direction. -/
theorem CoupledIn.symm {a b : ℕ} (h : G.CoupledIn allowed a b) : G.CoupledIn allowed b a :=
  ⟨h.2.1, h.1, (G.hasEdge_comm b a).trans h.2.2⟩

/-- A list of qubits, each coupled to the next, is a way to reach the last. -/
theorem reachedIn_of_isChain {sources : List ℕ} {b : ℕ} (walk : List ℕ) : ∀ {a j : ℕ},
    (walk ++ [b]).IsChain (G.CoupledIn allowed) → (walk ++ [b]).head? = some a →
      ReachedIn (G.neighborsWithin allowed) sources j a →
      ReachedIn (G.neighborsWithin allowed) sources (j + walk.length) b := by
  induction walk with
  | nil =>
    rintro a j _ ⟨⟩ h
    exact h
  | cons c walk ih =>
    rintro a j hchain ⟨⟩ h
    obtain ⟨x, hx⟩ : ∃ x, (walk ++ [b]).head? = some x := by cases walk <;> simp
    obtain ⟨hnext, hrest⟩ := List.isChain_cons.mp hchain
    obtain ⟨_, hallowed, hedge⟩ := hnext x hx
    rw [List.length_cons, Nat.add_comm walk.length 1, ← Nat.add_assoc]
    exact ih hrest hx (.step h (mem_neighborsWithin.mpr ⟨hallowed, hedge⟩))

end CouplingGraph

open CouplingGraph in
/-- **The tree grows while the threads get shorter**: its edges and the steps left are no more than
the steps at the beginning. -/
theorem SteinerTree.Attached.threads {G : CouplingGraph} {allowed terminals : List ℕ} {root : ℕ}
    {edges : List (ℕ × ℕ)} (h : Attached G allowed terminals root edges)
    (hallowed : ∀ q ∈ root :: edges.map (·.2), q ∈ allowed)
    (hstart : Threads (G.CoupledIn allowed) {root} P k) (hcover : ∀ q ∈ terminals, q ∈ P) :
    ∃ P' k', Threads (G.CoupledIn allowed) {q | q ∈ root :: edges.map (·.2)} P' k' ∧
      edges.length + k' ≤ k ∧ ∀ q ∈ terminals, q ∉ root :: edges.map (·.2) → q ∈ P' := by
  induction h with
  | root => exact ⟨P, k, hstart.mono (by simp), by simp, fun q hq _ => hcover q hq⟩
  | @branch edges branch v _ hv hnew hbranch hleast ih =>
    rw [List.map_append, ← List.cons_append] at hallowed ⊢
    have hnodes : ∀ q ∈ root :: edges.map (·.2), q ∈ allowed := fun q hq =>
      hallowed q (List.mem_append_left _ hq)
    obtain ⟨P₁, k₁, hthreads, hle, hopen⟩ := ih hnodes
    -- no walk from the tree to an open terminal is shorter than the branch
    have hshort : ∀ {a b : ℕ} {walk : List ℕ}, a ∈ {q | q ∈ root :: edges.map (·.2)} →
        b ∈ {q | q ∈ terminals ∧ q ∉ root :: edges.map (·.2)} →
        (walk ++ [b]).IsChain (G.CoupledIn allowed) → (walk ++ [b]).head? = some a →
        branch.length ≤ walk.length := by
      intro a b walk ha hb hchain hhead
      have hreached := reachedIn_of_isChain walk hchain hhead (.source ha)
      rw [Nat.zero_add] at hreached
      obtain ⟨x, y, p, hx, rfl, hp⟩ := (reachedIn_iff hnodes).mp hreached
      exact hleast.2 ⟨x, y, p, hx, hb, hp⟩
    obtain ⟨P', k', hthreads', hle', hopen'⟩ :=
      hthreads.attach (fun _ _ => CoupledIn.symm) hshort (hopen v hv hnew) ⟨hv, hnew⟩
    refine ⟨P', k', hthreads'.mono ?_, ?_, ?_⟩
    · rintro q (rfl | hq)
      · exact List.mem_append_right _ (hbranch.mem.resolve_left hnew)
      · exact List.mem_append_left _ hq
    · rw [List.length_append]
      omega
    · intro q hq hnot
      have hnot : q ∉ root :: edges.map (·.2) := fun hmem => hnot (List.mem_append_left _ hmem)
      exact hopen' q (hopen q hq hnot) ⟨hq, hnot⟩

namespace CouplingGraph

variable {G : CouplingGraph} {allowed terminals : List ℕ} {root : ℕ} {t : SteinerTree}

/-! ## Subgraphs -/

/-- A connected subgraph on finitely many qubits has at least as many edges as qubits, but for
one. -/
theorem ncard_verts_le {H : G.toSimpleGraph.Subgraph} (hH : H.Connected) :
    H.verts.ncard ≤ H.edgeSet.ncard + 1 := by
  have hcard := hH.coe.card_vert_le_card_edgeSet_add_one
  have hedges : Nat.card H.coe.edgeSet = H.edgeSet.ncard := by
    rw [← H.image_coe_edgeSet_coe,
      Set.ncard_image_of_injective _ (Sym2.map.injective Subtype.val_injective)]
    rfl
  rwa [hedges] at hcard

/-- **A tour of a connected subgraph**, two steps for each of its edges. -/
theorem exists_tour_subgraph {H : G.toSimpleGraph.Subgraph} (hH : H.Connected)
    (hallowed : ∀ q ∈ H.verts, q ∈ allowed) (hroot : root ∈ H.verts) :
    ∃ walk : List ℕ, (root :: walk).IsChain (G.CoupledIn allowed) ∧
      (∀ q ∈ H.verts, q ∈ root :: walk) ∧ walk.length ≤ 2 * H.edgeSet.ncard := by
  have hfinite : H.verts.Finite := (List.finite_toSet allowed).subset hallowed
  have hgrow : ∀ C ⊂ hfinite.toFinset, root ∈ C →
      ∃ x ∈ C, ∃ y ∈ hfinite.toFinset, y ∉ C ∧ G.CoupledIn allowed x y := by
    intro C hC hrootC
    obtain ⟨z, hz, hnot⟩ := Finset.exists_of_ssubset hC
    -- a walk to a vertex outside crosses over somewhere
    obtain ⟨p⟩ := hH.coe.preconnected ⟨root, hroot⟩ ⟨z, hfinite.mem_toFinset.mp hz⟩
    obtain ⟨d, _, hin, hout⟩ := p.exists_boundary_dart {q | q.1 ∈ C} hrootC hnot
    refine ⟨d.fst.1, hin, d.snd.1, hfinite.mem_toFinset.mpr d.snd.2, hout,
      hallowed _ d.fst.2, hallowed _ d.snd.2, ?_⟩
    exact H.adj_sub d.adj
  obtain ⟨walk, hchain, hmem, hlength⟩ := exists_tour (fun _ _ => CoupledIn.symm)
    (hfinite.mem_toFinset.mpr hroot) hgrow
  refine ⟨walk, hchain, fun q hq => hmem q (hfinite.mem_toFinset.mpr hq), ?_⟩
  have hcard := ncard_verts_le hH
  rw [Set.ncard_eq_toFinset_card _ hfinite] at hcard
  omega

/-- **Steiner trees are within a factor of two**: a computed tree has at most twice as many edges as
any connected subgraph among the allowed qubits that contains the root and all terminals. -/
theorem steinerTreeWith_factor_two {usable extra : List ℕ}
    (h : G.steinerTreeWith root terminals usable extra = .ok t) {H : G.toSimpleGraph.Subgraph}
    (hH : H.Connected) (hallowed : ∀ q ∈ H.verts, q ∈ usable ++ extra) (hroot : root ∈ H.verts)
    (hterminals : ∀ q ∈ terminals, q ∈ H.verts) :
    t.edges.length ≤ 2 * H.edgeSet.ncard := by
  obtain ⟨hspans, rfl, _⟩ := steinerTreeWith_ok h
  obtain ⟨walk, hchain, hmem, hlength⟩ := exists_tour_subgraph hH hallowed hroot
  obtain ⟨_, _, _, hle, _⟩ := (attached_steinerTreeWith h).threads hspans.allowed
    (.thread rfl hchain .none) fun q hq => .inl (hmem q (hterminals q hq))
  omega

/-- Three vertices around a hub. -/
theorem exists_star {A : SimpleGraph ℕ} {hub a b c : ℕ} (ha : A.Adj hub a) (hb : A.Adj hub b)
    (hc : A.Adj hub c) (hab : a ≠ b) (hac : a ≠ c) (hbc : b ≠ c) :
    ∃ H : A.Subgraph, H.Connected ∧ H.verts = {a, b, c, hub} ∧ H.edgeSet.ncard = 3 := by
  refine ⟨A.subgraphOfAdj ha ⊔ A.subgraphOfAdj hb ⊔ A.subgraphOfAdj hc, ?_, ?_, ?_⟩
  · have hpair := SimpleGraph.Subgraph.connected_sup
      (SimpleGraph.Subgraph.subgraphOfAdj_connected ha).preconnected
      (SimpleGraph.Subgraph.subgraphOfAdj_connected hb).preconnected ⟨hub, by simp⟩
    exact SimpleGraph.Subgraph.connected_sup hpair.preconnected
      (SimpleGraph.Subgraph.subgraphOfAdj_connected hc).preconnected ⟨hub, by simp⟩
  · ext q
    simp only [SimpleGraph.Subgraph.verts_sup, SimpleGraph.subgraphOfAdj_verts, Set.mem_union,
      Set.mem_insert_iff, Set.mem_singleton_iff]
    tauto
  · have hedges : (A.subgraphOfAdj ha ⊔ A.subgraphOfAdj hb ⊔ A.subgraphOfAdj hc).edgeSet =
        {s(hub, a), s(hub, b), s(hub, c)} := by
      simp only [SimpleGraph.Subgraph.edgeSet_sup, SimpleGraph.edgeSet_subgraphOfAdj]
      rw [Set.union_assoc]
      rfl
    rw [hedges]
    exact Set.ncard_eq_three.mpr ⟨_, _, _, by simp [hab, hb.ne], by simp [hac, hc.ne],
      by simp [hbc, hc.ne], rfl⟩

/-- Three qubits around a hub that the tree goes past: it takes the qubit `3` between `0` and `1`,
and has four edges where the three of the hub would do. -/
theorem steinerTreeWith_factor_two_hub :
    let G := assemble "hub" 6 [0, 1, 2, 3, 4, 5]
      [(0, 3), (0, 5), (1, 3), (1, 4), (1, 5), (2, 4), (2, 5)] (by decide) (by simp [IsCoupling])
    G.steinerTreeWith 0 [1, 2] [0, 1, 2, 3, 4, 5] [] =
        .ok ⟨0, [(0, 3), (3, 1), (0, 5), (5, 2)]⟩ ∧
      ∃ H : G.toSimpleGraph.Subgraph, H.Connected ∧ H.verts = {0, 1, 2, 5} ∧
        H.edgeSet.ncard = 3 ∧ [(0, 3), (3, 1), (0, 5), (5, 2)].length ≤ 2 * H.edgeSet.ncard := by
  intro G
  have hok : G.steinerTreeWith 0 [1, 2] [0, 1, 2, 3, 4, 5] [] =
      .ok ⟨0, [(0, 3), (3, 1), (0, 5), (5, 2)]⟩ := by decide
  have hzero : G.toSimpleGraph.Adj 5 0 := show G.hasEdge 5 0 = true by decide
  have hone : G.toSimpleGraph.Adj 5 1 := show G.hasEdge 5 1 = true by decide
  have htwo : G.toSimpleGraph.Adj 5 2 := show G.hasEdge 5 2 = true by decide
  obtain ⟨H, hconnected, hverts, hedges⟩ :=
    exists_star hzero hone htwo (by decide) (by decide) (by decide)
  refine ⟨hok, H, hconnected, hverts, hedges, ?_⟩
  exact steinerTreeWith_factor_two hok hconnected (by simp [hverts]) (by simp [hverts])
    (by simp [hverts])

end CouplingGraph

end CnotSynthesis
