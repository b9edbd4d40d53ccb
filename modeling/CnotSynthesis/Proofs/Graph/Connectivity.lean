import CnotSynthesis.Graph.Standard
import CnotSynthesis.Graph.Paths
import CnotSynthesis.Proofs.Graph.Adjacency
import CnotSynthesis.Proofs.Graph.BreadthFirst

/-! # Connected sets of qubits

* **`G.toSimpleGraph`**, **`G.ConnectedOn S`** — the couplings as a simple graph; the qubits of `S`
  induce a connected subgraph. `connectedOn_iff` says so by paths inside `S`.
* **`CouplingGraph.isConnected_iff`**, **`CouplingGraph.mem_removable_iff`** — the computed answers
  are about this notion.
* **`CouplingGraph.exists_mem_removable`** — a connected set has a qubit that can be taken away. -/

namespace CnotSynthesis.CouplingGraph

variable {G : CouplingGraph} {S : Set ℕ}

/-! ## Couplings as a simple graph -/

/-- No qubit is coupled to itself. -/
theorem ne_of_hasEdge {a b : ℕ} (h : G.hasEdge a b = true) : a ≠ b := by
  rintro rfl
  obtain ⟨_, _, hlisted⟩ := hasEdge_iff.mp h
  exact (G.edges_coupling _ hlisted).2.2 (by simp [orient])

/-- The couplings as a simple graph on the numbers. -/
def toSimpleGraph (G : CouplingGraph) : SimpleGraph ℕ where
  Adj a b := G.hasEdge a b = true
  symm := ⟨fun a b h => (G.hasEdge_comm b a).trans h⟩
  loopless := ⟨fun _ h => ne_of_hasEdge h rfl⟩

/-- **Connected sets**: the qubits of `S` induce a connected subgraph. -/
def ConnectedOn (G : CouplingGraph) (S : Set ℕ) : Prop := (G.toSimpleGraph.induce S).Preconnected

/-- A coupling that leads into `S`. -/
def LeadsInto (G : CouplingGraph) (S : Set ℕ) (a b : ℕ) : Prop := b ∈ S ∧ G.hasEdge a b = true

/-- Joined in the induced subgraph means joined by couplings inside `S`. -/
theorem reachable_induce_iff {a b : ℕ} (ha : a ∈ S) (hb : b ∈ S) :
    (G.toSimpleGraph.induce S).Reachable ⟨a, ha⟩ ⟨b, hb⟩ ↔
      Relation.ReflTransGen (G.LeadsInto S) a b := by
  rw [SimpleGraph.reachable_iff_reflTransGen]
  constructor
  · exact fun hpath => hpath.lift Subtype.val fun x y hxy => ⟨y.2, hxy⟩
  · intro hpath
    -- along a path inside `S` every vertex is one of the induced graph
    induction hpath with
    | refl => exact .refl
    | tail hpath hedge ih =>
      have hmem : ∀ {x}, Relation.ReflTransGen (G.LeadsInto S) a x → x ∈ S := by
        intro x hx
        cases hx with
        | refl => exact ha
        | tail _ hlast => exact hlast.1
      exact (ih (hmem hpath)).tail hedge.2

/-- **Connected by paths**: any two qubits of `S` are joined by couplings inside `S`. -/
theorem connectedOn_iff :
    G.ConnectedOn S ↔ ∀ a ∈ S, ∀ b ∈ S, Relation.ReflTransGen (G.LeadsInto S) a b := by
  constructor
  · exact fun h a ha b hb => (reachable_induce_iff ha hb).mp (h ⟨a, ha⟩ ⟨b, hb⟩)
  · exact fun h a b => (reachable_induce_iff a.2 b.2).mpr (h a a.2 b b.2)

/-- A path inside `S` can be walked back. -/
theorem LeadsInto.reverse {a b : ℕ} (ha : a ∈ S)
    (h : Relation.ReflTransGen (G.LeadsInto S) a b) :
    b ∈ S ∧ Relation.ReflTransGen (G.LeadsInto S) b a := by
  induction h with
  | refl => exact ⟨ha, .refl⟩
  | tail _ hedge ih =>
    obtain ⟨hmem, hback⟩ := ih
    exact ⟨hedge.1, hback.head ⟨hmem, (G.hasEdge_comm _ _).trans hedge.2⟩⟩

/-- One qubit that reaches all others is enough. -/
theorem connectedOn_of_hub {a : ℕ} (ha : a ∈ S)
    (h : ∀ b ∈ S, Relation.ReflTransGen (G.LeadsInto S) a b) : G.ConnectedOn S :=
  connectedOn_iff.mpr fun x hx y hy => (LeadsInto.reverse ha (h x hx)).2.trans (h y hy)

/-- A qubit coupled to a connected set may join it. -/
theorem ConnectedOn.insert {a b : ℕ} (h : G.ConnectedOn S) (hb : b ∈ S)
    (hab : G.hasEdge a b = true) : G.ConnectedOn (insert a S) := by
  refine connectedOn_of_hub (Set.mem_insert_of_mem a hb) ?_
  intro x hx
  rcases hx with rfl | hx
  · exact .single ⟨Set.mem_insert x S, (G.hasEdge_comm b x).trans hab⟩
  · refine Relation.ReflTransGen.mono ?_ _ _ (connectedOn_iff.mp h b hb x hx)
    exact fun u v huv => ⟨Set.mem_insert_of_mem a huv.1, huv.2⟩

/-- A single qubit is connected. -/
theorem connectedOn_singleton (a : ℕ) : G.ConnectedOn {a} := by
  refine connectedOn_iff.mpr ?_
  rintro x rfl y rfl
  exact .refl

/-- **A connected set has a qubit that can be taken away.** -/
theorem ConnectedOn.exists_diff (h : G.ConnectedOn S) (hfinite : S.Finite) (hne : S.Nonempty) :
    ∃ q ∈ S, G.ConnectedOn (S \ {q}) := by
  have : Finite S := hfinite
  have : Nonempty S := hne.to_subtype
  have hconnected : (G.toSimpleGraph.induce S).Connected := ⟨h⟩
  obtain ⟨q, hq⟩ := hconnected.exists_preconnected_induce_compl_singleton_of_finite
  refine ⟨q, q.2, connectedOn_iff.mpr ?_⟩
  rintro a ⟨ha, haq⟩ b ⟨hb, hbq⟩
  have hpath := (SimpleGraph.reachable_iff_reflTransGen _ _).mp
    (hq ⟨⟨a, ha⟩, fun h => haq (congrArg Subtype.val h)⟩
      ⟨⟨b, hb⟩, fun h => hbq (congrArg Subtype.val h)⟩)
  refine hpath.lift (fun x => x.1.1) ?_
  intro x y hxy
  exact ⟨⟨y.1.2, fun h => y.2 (Subtype.ext h)⟩, hxy⟩

/-! ## Walks among usable qubits -/

/-- The neighbours among usable qubits. -/
theorem mem_neighborsWithin {usable : List ℕ} {q p : ℕ} :
    p ∈ G.neighborsWithin usable q ↔ p ∈ usable ∧ G.hasEdge q p = true := by
  unfold neighborsWithin allows
  rw [List.mem_filter, mem_neighbors]
  simp only [Bool.and_eq_true, decide_eq_true_eq, List.contains_iff_mem]
  exact ⟨fun h => ⟨h.2.2, h.1⟩, fun h => ⟨h.2, (lt_of_hasEdge h.2).2, h.1⟩⟩

/-- No qubit is a neighbour twice. -/
theorem nodup_neighbors (q : ℕ) : (G.neighbors q).Nodup :=
  (G.pairwise_neighbors q).imp fun h => h.ne

/-- No neighbour is listed twice. -/
theorem nodup_neighborsWithin (usable : List ℕ) (q : ℕ) : (G.neighborsWithin usable q).Nodup :=
  (nodup_neighbors q).filter _

/-- The whole graph is usable where everything is. -/
theorem neighborsWithin_eq_neighbors {usable : List ℕ} (h : ∀ q, q < G.size → q ∈ usable) :
    G.neighborsWithin usable = G.neighbors := by
  funext q
  unfold neighborsWithin
  refine List.filter_eq_self.mpr ?_
  intro p hp
  have hlt := (lt_of_hasEdge (mem_neighbors.mp hp)).2
  simp [allows, hlt, h p hlt]

/-- If all qubits are usable, all neighbours are. -/
theorem neighborsWithin_range (G : CouplingGraph) :
    G.neighborsWithin (List.range G.size) = G.neighbors :=
  neighborsWithin_eq_neighbors fun _ hq => List.mem_range.mpr hq

/-- Only qubits of the graph are reached. -/
theorem reaches_lt {usable sources : List ℕ} (hsources : ∀ q ∈ sources, q < G.size) {v : ℕ}
    (h : Reaches (G.neighborsWithin usable) sources v) : v < G.size := by
  obtain ⟨s, hs, hpath⟩ := h
  cases hpath with
  | refl => exact hsources v hs
  | tail _ hedge => exact (lt_of_hasEdge (mem_neighborsWithin.mp hedge).2).2

/-- From a qubit of the graph, neighbours lead to qubits of the graph only. -/
theorem neighbors_reaches_lt {a : ℕ} (ha : a < G.size) :
    ∀ v, Reaches G.neighbors [a] v → v < G.size := by
  intro v hv
  rw [← neighborsWithin_range] at hv
  exact reaches_lt (by simpa using ha) hv

/-- Among usable qubits a walk reaches what couplings between them reach. -/
theorem reaches_singleton_iff {usable : List ℕ} {a b : ℕ} :
    Reaches (G.neighborsWithin usable) [a] b ↔
      Relation.ReflTransGen (G.LeadsInto {q | q ∈ usable}) a b := by
  have hrel : (fun x y => y ∈ G.neighborsWithin usable x) = G.LeadsInto {q | q ∈ usable} := by
    funext x y
    exact propext mem_neighborsWithin
  unfold Reaches
  rw [hrel]
  simp

/-- **Connectedness by counting**: usable qubits are connected exactly if a walk from one of them
reaches as many. -/
theorem length_reach_eq_iff {usable : List ℕ} (hnodup : usable.Nodup)
    (hlt : ∀ q ∈ usable, q < G.size) {a : ℕ} (ha : a ∈ usable) :
    (reach (G.neighborsWithin usable) G.size a).length = usable.length ↔
      G.ConnectedOn {q | q ∈ usable} := by
  have hsources : ∀ q ∈ [a], q < G.size := by simpa using hlt a ha
  have hreach : ∀ v, v ∈ reach (G.neighborsWithin usable) G.size a ↔
      Relation.ReflTransGen (G.LeadsInto {q | q ∈ usable}) a v := fun v =>
    (mem_seen_iff (nodup_neighborsWithin usable) (List.nodup_singleton a)
      fun _ => reaches_lt hsources).trans reaches_singleton_iff
  have hreachNodup : (reach (G.neighborsWithin usable) G.size a).Nodup :=
    nodup_seen (nodup_neighborsWithin usable) (List.nodup_singleton a) fun _ => reaches_lt hsources
  have hsub : reach (G.neighborsWithin usable) G.size a ⊆ usable := by
    intro v hv
    exact (LeadsInto.reverse (S := {q | q ∈ usable}) ha ((hreach v).mp hv)).1
  have hsubperm := List.subperm_of_subset hreachNodup hsub
  constructor
  · intro hlen
    have hperm := hsubperm.perm_of_length_le (Nat.le_of_eq hlen.symm)
    refine connectedOn_of_hub (S := {q | q ∈ usable}) ha ?_
    exact fun b hb => (hreach b).mp (hperm.mem_iff.mpr hb)
  · intro hconnected
    refine le_antisymm hsubperm.length_le ?_
    refine (List.subperm_of_subset hnodup ?_).length_le
    exact fun b hb => (hreach b).mpr (connectedOn_iff.mp hconnected a ha b hb)

/-- **The check for connectedness** is right. -/
theorem isConnected_iff : G.isConnected = true ↔ G.ConnectedOn {q | q < G.size} := by
  have hset : {q | q < G.size} = {q | q ∈ List.range G.size} := by simp
  unfold isConnected
  rw [Bool.or_eq_true, decide_eq_true_eq, beq_iff_eq, ← G.neighborsWithin_range, hset]
  rcases Nat.lt_or_ge 0 G.size with hpos | hzero
  · have hcount := length_reach_eq_iff (G := G) List.nodup_range
      (fun q hq => List.mem_range.mp hq) (List.mem_range.mpr hpos)
    rw [List.length_range] at hcount
    rw [← hcount]
    refine ⟨?_, .inr⟩
    rintro (hone | hlen)
    · -- a single qubit reaches itself
      refine hcount.mpr (connectedOn_iff.mpr ?_)
      intro a ha b hb
      have ha := List.mem_range.mp ha
      have hb := List.mem_range.mp hb
      have : a = b := by omega
      rw [this]
    · exact hlen
  · refine ⟨fun _ => connectedOn_iff.mpr ?_, fun _ => .inl (by omega)⟩
    intro a ha
    have := List.mem_range.mp ha
    omega

/-! ## Qubits that can be taken away -/

/-- The test for staying connected without a qubit is right. -/
theorem staysConnected_iff {members : List ℕ} (hnodup : members.Nodup)
    (hlt : ∀ q ∈ members, q < G.size) (q : ℕ) :
    G.staysConnected members q = true ↔ G.ConnectedOn {p | p ∈ members.filter (· != q)} := by
  have hnodup' := hnodup.filter (· != q)
  have hlt' : ∀ p ∈ members.filter (· != q), p < G.size := fun p hp =>
    hlt p (List.mem_filter.mp hp).1
  unfold staysConnected
  cases hrest : members.filter (· != q) with
  | nil =>
    refine ⟨fun _ => connectedOn_iff.mpr ?_, fun _ => rfl⟩
    intro a ha
    cases ha
  | cons first others =>
    rw [hrest] at hnodup' hlt'
    rw [← length_reach_eq_iff hnodup' hlt' List.mem_cons_self, List.length_cons]
    exact beq_iff_eq

/-- **The removable qubits** are those without which the others stay connected. -/
theorem mem_removable_iff {rows : List ℕ} (hlt : ∀ q ∈ rows, q < G.size) {q : ℕ} :
    q ∈ G.removable rows ↔ q ∈ rows ∧ G.ConnectedOn {p | p ∈ rows.filter (· != q)} := by
  have hmem : ∀ p, p ∈ (List.range G.size).filter rows.contains ↔ p ∈ rows := by
    intro p
    rw [List.mem_filter, List.mem_range, List.contains_iff_mem]
    exact ⟨fun h => h.2, fun h => ⟨hlt p h, h⟩⟩
  have hset : {p | p ∈ ((List.range G.size).filter rows.contains).filter (· != q)} =
      {p | p ∈ rows.filter (· != q)} := by
    ext p
    simp only [Set.mem_ofPred_eq, List.mem_filter (p := (· != q)), hmem]
  unfold removable
  rw [List.mem_filter, hmem, staysConnected_iff (List.nodup_range.filter _)
    (fun p hp => hlt p ((hmem p).mp hp)), hset]

/-- **There is always a removable qubit.** -/
theorem exists_mem_removable {rows : List ℕ} (hlt : ∀ q ∈ rows, q < G.size) (hne : rows ≠ [])
    (h : G.ConnectedOn {q | q ∈ rows}) : ∃ q, q ∈ G.removable rows := by
  obtain ⟨q, hq, hrest⟩ := h.exists_diff rows.finite_toSet (List.exists_mem_of_ne_nil rows hne)
  refine ⟨q, (mem_removable_iff hlt).mpr ⟨hq, ?_⟩⟩
  have hset : {p | p ∈ rows.filter (· != q)} = {p | p ∈ rows} \ {q} := by
    ext p
    simp
  rw [hset]
  exact hrest

/-! ## Complete graphs -/

/-- Different qubits of the complete graph are coupled. -/
theorem hasEdge_complete {n a b : ℕ} (ha : a < n) (hb : b < n) (hab : a ≠ b) :
    (complete n).hasEdge a b = true := by
  have hvertex : ∀ q, q < n → (complete n).vertexOf q = q := by
    intro q hq
    simp [vertexOf, complete, assemble, hq]
  have hpair : ∀ a b, a < b → b < n → (a, b) ∈ allPairs n := by
    intro a b hab hb
    refine List.mem_flatMap.mpr ⟨a, List.mem_range.mpr (by omega), ?_⟩
    exact List.mem_map.mpr ⟨b, List.mem_range'_1.mpr ⟨hab, by omega⟩, rfl⟩
  rw [hasEdge_iff, hvertex a ha, hvertex b hb]
  refine ⟨ha, hb, mem_normalEdges.mpr ?_⟩
  rcases Nat.lt_or_gt_of_ne hab with hlt | hgt
  · exact ⟨(a, b), hpair a b hlt hb, rfl⟩
  · exact ⟨(b, a), hpair b a hgt ha, orient_comm a b⟩

/-- Every set of qubits of a complete graph is connected. -/
theorem connectedOn_complete {n : ℕ} (hS : ∀ q ∈ S, q < n) : (complete n).ConnectedOn S := by
  refine connectedOn_iff.mpr ?_
  intro a ha b hb
  by_cases hab : a = b
  · rw [hab]
  · exact .single ⟨hb, hasEdge_complete (hS a ha) (hS b hb) hab⟩

end CnotSynthesis.CouplingGraph
