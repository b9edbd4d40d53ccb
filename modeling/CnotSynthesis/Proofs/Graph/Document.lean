import CnotSynthesis.Graph.Document
import CnotSynthesis.Proofs.Graph.Standard
import CnotSynthesis.Proofs.Outcomes

/-! # Coupling graphs and their documents

* **`CouplingSpec.ofJson?_toJson`** — a document is read back from its value.
* **`CouplingGraph.ofLabelled_eq_ok_iff`** — a graph is accepted if the labelling is a permutation,
  the couplings join different vertices, and these are connected; it is then put together from them.
  **`CouplingGraph.ofLabelled_congr`** — it does not depend on how the couplings are listed.
* **`CouplingGraph.Built G`** — `G` comes from one of the constructors;
  **`CouplingGraph.Encodable`** — what all of them have in common: couplings in normal form,
  connected, of a size that can be held. **`Encodable.toGraph_toSpec`** — such a graph is the graph
  of its document.
* **`CouplingGraph.construction_specification`** — all this for every list of couplings. -/

namespace CnotSynthesis

/-! ## Documents as values -/

/-- The digits of a number are read as that number. -/
theorem Decimal.numberOf_toDigits (n : ℕ) : numberOf ((Nat.toDigits 10 n).map digitOf) = n := by
  calc numberOf ((Nat.toDigits 10 n).map digitOf)
      = Nat.ofDigitChars 10 (Nat.toDigits 10 n) 0 := by
        rw [numberOf, List.foldl_map, Nat.ofDigitChars_eq_foldl]
        simp only [digitOf, mul_comm]
    _ = n := Nat.ofDigitChars_ten_toDigits

/-- A number is written with digits only. -/
theorem Decimal.Literal.ofText_repr (n : ℕ) :
    ofText (Nat.repr n) = ⟨false, (Nat.toDigits 10 n).map digitOf, [], 0, true⟩ := by
  have hdigits : ∀ c ∈ Nat.toDigits 10 n, c.isDigit = true := fun c hc =>
    Nat.isDigit_of_mem_toDigits (by decide) (by decide) hc
  have hsign : (Nat.toDigits 10 n).head? ≠ some '-' := fun hhead =>
    absurd (hdigits '-' (List.mem_of_head? hhead)) (by decide)
  have htake : (Nat.toDigits 10 n).takeWhile Char.isDigit = Nat.toDigits 10 n :=
    List.takeWhile_eq_self_iff.mpr hdigits
  have hdrop : (Nat.toDigits 10 n).dropWhile Char.isDigit = [] :=
    List.dropWhile_eq_nil_iff.mpr hdigits
  -- without a sign, all characters belong to the whole part and none are left for the others
  unfold ofText
  rw [Nat.repr_eq_ofList_toDigits, String.toList_ofList]
  simp [hsign, htake, hdrop, numberOf]

/-- A number of 64 bits is read back from its value. -/
theorem Json.nat?_ofNat {n : ℕ} (h : n < UInt64.size) : (Json.ofNat n).nat? = some n := by
  change (Decimal.Literal.ofText (Nat.repr n)).toNat? UInt64.size = some n
  rw [Decimal.Literal.ofText_repr]
  simp [Decimal.Literal.toNat?, Decimal.numberOf_toDigits, h]

/-- A list of values is read one by one. -/
theorem Json.list?_map {α : Type} {encode : α → Json} {read : Json → Option α} {as : List α}
    (h : ∀ a ∈ as, read (encode a) = some a) :
    (Json.array (as.map encode)).list? read = some as := by
  change (as.map encode).mapM read = some as
  induction as with
  | nil => rfl
  | cons a as ih =>
    rw [List.forall_mem_cons] at h
    simp [h.1, ih h.2]

/-- The fields of a document's value. -/
theorem CouplingSpec.record?_toJson (s : CouplingSpec) :
    s.toJson.record? ["name", "num_qubits", "edges", "qubit_to_vertex"] =
      some [some (.string s.name), some (.ofNat s.size), some (.array (s.edges.map edgeToJson)),
        s.labelling.map Json.ofNats] := by
  obtain ⟨name, size, edges, labelling⟩ := s
  cases labelling <;> rfl

/-- **A document is read back from its value**, if its numbers are those of a 64-bit word. -/
theorem CouplingSpec.ofJson?_toJson {s : CouplingSpec} (hsize : s.size < UInt64.size)
    (hedges : ∀ e ∈ s.edges, e.1 < UInt64.size ∧ e.2 < UInt64.size)
    (hlabelling : ∀ l ∈ s.labelling, ∀ v ∈ l, v < UInt64.size) : ofJson? s.toJson = some s := by
  have hpairs : (Json.array (s.edges.map edgeToJson)).list? (Json.pair? Json.nat? Json.nat?) =
      some s.edges := by
    refine Json.list?_map fun e he => ?_
    obtain ⟨hfirst, hsecond⟩ := hedges e he
    simp [edgeToJson, Json.pair?, Json.nat?_ofNat hfirst, Json.nat?_ofNat hsecond]
  have hread : ∀ l ∈ s.labelling,
      (Json.ofNats l).option? (Json.list? Json.nat?) = some (some l) := by
    intro l hl
    have hlist : (Json.ofNats l).list? Json.nat? = some l :=
      Json.list?_map fun v hv => Json.nat?_ofNat (hlabelling l hl v hv)
    exact congrArg (Option.map some) hlist
  obtain ⟨name, size, edges, labelling⟩ := s
  unfold ofJson?
  rw [record?_toJson]
  cases labelling with
  | none => simp [Json.text?, Json.nat?_ofNat hsize, hpairs]
  | some l => simp [Json.text?, Json.nat?_ofNat hsize, hpairs, hread l rfl]

namespace CouplingGraph

variable {G : CouplingGraph} {name : String} {n : ℕ} {edges : List (ℕ × ℕ)} {labelling : List ℕ}

/-! ## Accepted lists of couplings -/

/-- The check of a coupling is the condition on its ends. -/
theorem edgeFault?_eq_none_iff {e : ℕ × ℕ} : edgeFault? n e = none ↔ IsCoupling n e := by
  refine ⟨isCoupling_of_edgeFault?, ?_⟩
  rintro ⟨hfirst, hsecond, hne⟩
  unfold edgeFault?
  rw [if_neg (by omega), if_neg hne]

/-- **Accepted couplings**: those between different vertices that connect the graph. -/
theorem ofPlaced_eq_ok_iff {hl : IsPermutation labelling n} :
    ofPlaced name n edges labelling hl = .ok G ↔ ∃ he : ∀ e ∈ edges, IsCoupling n e,
      (assemble name n labelling edges hl he).isConnected = true ∧
        G = assemble name n labelling edges hl he := by
  unfold ofPlaced
  split
  · next cause hcause =>
    refine ⟨nofun, ?_⟩
    rintro ⟨he, _⟩
    obtain ⟨e, hmem, hfault⟩ := List.exists_of_findSome?_eq_some hcause
    rw [edgeFault?_eq_none_iff.mpr (he e hmem)] at hfault
    cases hfault
  · next hnone =>
    have he : ∀ e ∈ edges, IsCoupling n e := fun e hmem =>
      edgeFault?_eq_none_iff.mp (List.findSome?_eq_none_iff.mp hnone e hmem)
    dsimp only
    split
    · next hconnected =>
      refine ⟨fun h => ⟨he, hconnected, (Except.ok.inj h).symm⟩, ?_⟩
      rintro ⟨_, _, rfl⟩
      rfl
    · next hconnected =>
      refine ⟨nofun, ?_⟩
      rintro ⟨_, hconnected', _⟩
      exact absurd hconnected' hconnected

/-- **Accepted graphs.** -/
theorem ofLabelled_eq_ok_iff : ofLabelled name n edges labelling = .ok G ↔
    ∃ (hl : IsPermutation labelling n) (he : ∀ e ∈ edges, IsCoupling n e),
      (vertexGraph n edges).Preconnected ∧ G = assemble name n labelling edges hl he := by
  unfold ofLabelled
  split
  · next hl =>
    rw [ofPlaced_eq_ok_iff]
    constructor
    · rintro ⟨he, hconnected, rfl⟩
      exact ⟨hl, he, isConnected_assemble.mp hconnected, rfl⟩
    · rintro ⟨_, he, hconnected, rfl⟩
      exact ⟨he, isConnected_assemble.mpr hconnected, rfl⟩
  · next hl =>
    refine ⟨nofun, ?_⟩
    rintro ⟨hl', _⟩
    exact absurd hl' hl

/-- Couplings without a labelling are placed in their own order, if they can be held. -/
theorem ofCouplings_eq_ok_iff : ofCouplings name n edges = .ok G ↔
    n < addressLimit ∧ ofPlaced name n edges (List.range n) (isPermutation_range n) = .ok G := by
  unfold ofCouplings requireRoom
  split
  · next hroom => exact mapError_eq_ok_iff.trans (and_iff_right hroom).symm
  · next hroom => exact ⟨nofun, fun h => absurd h.1 hroom⟩

/-- A coupling between different vertices is one whichever way it is listed. -/
theorem isCoupling_congr {edges' : List (ℕ × ℕ)}
    (hedges : ∀ u v, Couples edges' u v ↔ Couples edges u v) (he : ∀ e ∈ edges, IsCoupling n e) :
    ∀ e ∈ edges', IsCoupling n e := by
  rintro ⟨u, v⟩ hmem
  rcases (hedges u v).mp (.inl hmem) with h | h
  · exact he _ h
  · obtain ⟨hv, hu, hne⟩ := he _ h
    exact ⟨hu, hv, hne.symm⟩

/-- **The graph depends on the couplings only**, not on how they are listed. -/
theorem ofLabelled_congr {edges' : List (ℕ × ℕ)}
    (hedges : ∀ u v, Couples edges' u v ↔ Couples edges u v)
    (h : ofLabelled name n edges labelling = .ok G) :
    ofLabelled name n edges' labelling = .ok G := by
  obtain ⟨hl, he, hconnected, rfl⟩ := ofLabelled_eq_ok_iff.mp h
  have hgraph : vertexGraph n edges' = vertexGraph n edges := by
    ext u v
    exact and_congr_right fun _ => hedges u v
  refine ofLabelled_eq_ok_iff.mpr ⟨hl, isCoupling_congr hedges he, hgraph ▸ hconnected, ?_⟩
  exact eq_of_fields rfl rfl rfl (normalEdges_congr hedges).symm

/-! ## Graphs and documents -/

/-- **Graphs from a constructor.** The constructors that make a labelling of their own check that
there is room for it; one that is given is a list that is held already, so it is shorter than the
limit. -/
inductive Built : CouplingGraph → Prop
  | line {n : ℕ} {G : CouplingGraph} : line? n = .ok G → Built G
  | ring {n : ℕ} {G : CouplingGraph} : ring? n = .ok G → Built G
  | grid {rows cols : ℕ} {G : CouplingGraph} : grid? rows cols = .ok G → Built G
  | complete {n : ℕ} {G : CouplingGraph} : complete? n = .ok G → Built G
  | couplings {n : ℕ} {edges : List (ℕ × ℕ)} {G : CouplingGraph} : ofEdges n edges = .ok G → Built G
  | labelled {name : String} {n : ℕ} {edges : List (ℕ × ℕ)} {labelling : List ℕ}
      {G : CouplingGraph} :
      labelling.length < addressLimit → ofLabelled name n edges labelling = .ok G → Built G
  | document {s : CouplingSpec} {G : CouplingGraph} :
      (∀ labelling ∈ s.labelling, labelling.length < addressLimit) → s.toGraph = .ok G → Built G

/-- **What constructors guarantee**: couplings in normal form, and a connected graph of a size that
can be held. -/
structure Encodable (G : CouplingGraph) : Prop where
  normal : normalEdges G.edges = G.edges
  connected : G.isConnected = true
  room : G.size < addressLimit

/-- A graph that was put together from connected couplings can be written. -/
theorem encodable_assemble {hl : IsPermutation labelling n} {he : ∀ e ∈ edges, IsCoupling n e}
    (hroom : n < addressLimit) (hconnected : (vertexGraph n edges).Preconnected) :
    (assemble name n labelling edges hl he).Encodable :=
  ⟨normalEdges_normalEdges edges, isConnected_assemble.mpr hconnected, hroom⟩

/-- A graph made from couplings can be written. -/
theorem encodable_of_ofCouplings (h : ofCouplings name n edges = .ok G) : G.Encodable := by
  obtain ⟨hroom, hplaced⟩ := ofCouplings_eq_ok_iff.mp h
  obtain ⟨he, hconnected, rfl⟩ := ofPlaced_eq_ok_iff.mp hplaced
  exact encodable_assemble hroom (isConnected_assemble.mp hconnected)

/-- A graph made from couplings and a labelling can be written. -/
theorem encodable_of_ofLabelled (hroom : labelling.length < addressLimit)
    (h : ofLabelled name n edges labelling = .ok G) : G.Encodable := by
  obtain ⟨hl, he, hconnected, rfl⟩ := ofLabelled_eq_ok_iff.mp h
  exact encodable_assemble (hl.length_eq ▸ hroom) hconnected

/-- A standard graph of a size that can be held. -/
theorem encodable_of_standard {H : CouplingGraph} (hH : Standard H)
    (hnormal : normalEdges H.edges = H.edges)
    (h : ((requireRoom H.size).map fun _ => H) = .ok G) : G.Encodable := by
  unfold requireRoom at h
  split at h
  · next hroom =>
    obtain rfl : H = G := Except.ok.inj h
    exact ⟨hnormal, hH.isConnected, hroom⟩
  · cases h

/-- Every graph that can be built can be written. -/
theorem Built.encodable (h : Built G) : G.Encodable := by
  cases h with
  | line h => exact encodable_of_standard (.line _) (normalEdges_normalEdges _) h
  | ring h => exact encodable_of_standard (.ring _) (normalEdges_normalEdges _) h
  | grid h => exact encodable_of_standard (.grid _ _) (normalEdges_normalEdges _) h
  | complete h => exact encodable_of_standard (.complete _) (normalEdges_normalEdges _) h
  | couplings h => exact encodable_of_ofCouplings h
  | labelled hroom h => exact encodable_of_ofLabelled hroom h
  | @document s _ hroom h =>
    -- a document without a labelling is one of couplings, any other is labelled
    unfold CouplingSpec.toGraph at h
    split at h
    · exact encodable_of_ofCouplings h
    · next labelling hlabelling =>
      exact encodable_of_ofLabelled (hroom labelling hlabelling) (mapError_eq_ok_iff.mp h)

/-- **The graph of its document is the graph itself**, with all that is computed from it. -/
theorem Encodable.toGraph_toSpec (h : G.Encodable) : G.toSpec.toGraph = .ok G := by
  -- put together again from the listed couplings
  have hagain : ∀ {labelling : List ℕ} (hl : IsPermutation labelling G.size),
      labelling = G.labelling → ofPlaced G.name G.size G.edges labelling hl = .ok G := by
    rintro _ hl rfl
    have heq : G = assemble G.name G.size G.labelling G.edges hl G.edges_coupling :=
      eq_of_fields rfl rfl rfl h.normal.symm
    exact ofPlaced_eq_ok_iff.mpr ⟨G.edges_coupling, heq ▸ h.connected, heq⟩
  unfold toSpec CouplingSpec.toGraph
  by_cases hidentity : G.labelling = List.range G.size
  · rw [if_pos hidentity]
    exact ofCouplings_eq_ok_iff.mpr ⟨h.room, hagain (isPermutation_range G.size) hidentity.symm⟩
  · rw [if_neg hidentity]
    refine mapError_eq_ok_iff.mpr ?_
    rw [ofLabelled, dif_pos G.labelling_perm]
    exact hagain G.labelling_perm rfl

/-- The document is read back from its value: all its numbers are below the size of the graph. -/
theorem Encodable.ofJson?_toJson (h : G.Encodable) :
    CouplingSpec.ofJson? G.toSpec.toJson = some G.toSpec := by
  have hword : ∀ {v}, v ≤ G.size → v < UInt64.size := fun hv =>
    lt_of_le_of_lt hv (h.room.trans_le (by decide))
  refine CouplingSpec.ofJson?_toJson (hword le_rfl) ?_ ?_
  · intro e he
    obtain ⟨hfirst, hsecond, _⟩ := G.edges_coupling e he
    exact ⟨hword hfirst.le, hword hsecond.le⟩
  · intro labelling hlabelling v hv
    change labelling ∈ (if G.labelling = List.range G.size then none
      else some G.labelling) at hlabelling
    split at hlabelling
    · cases hlabelling
    · obtain rfl := Option.some.inj hlabelling
      exact hword (G.labelling_perm.lt v hv).le

/-! ## The graph of listed couplings -/

/-- **`G` presents the couplings `edges` of `n` vertices**, qubit `q` on vertex `labelling[q]`. -/
structure Presents (G : CouplingGraph) (n : ℕ) (edges : List (ℕ × ℕ)) (labelling : List ℕ) :
    Prop where
  size_eq : G.size = n
  hasEdge_iff : ∀ a b, G.hasEdge a b = true ↔
    ∃ u v, labelling[a]? = some u ∧ labelling[b]? = some v ∧ ((u, v) ∈ edges ∨ (v, u) ∈ edges)
  neighbors?_eq : ∀ q < n, G.neighbors? q = .ok (G.neighbors q)
  mem_neighbors_iff : ∀ q p, p ∈ G.neighbors q ↔ G.hasEdge q p = true
  ascending : ∀ q, (G.neighbors q).Pairwise (· < ·)
  symmetric : ∀ q p, p ∈ G.neighbors q → q ∈ G.neighbors p
  irreflexive : ∀ q, q ∉ G.neighbors q
  vertexOf?_iff : ∀ q v, G.vertexOf? q = .ok v ↔ labelling[q]? = some v
  qubitAt?_iff : ∀ q v, G.qubitAt? v = .ok q ↔ G.vertexOf? q = .ok v

/-- A graph that was put together presents what it was put together from. -/
theorem presents_assemble (hl : IsPermutation labelling n) (he : ∀ e ∈ edges, IsCoupling n e) :
    (assemble name n labelling edges hl he).Presents n edges labelling where
  size_eq := rfl
  hasEdge_iff _ _ := hasEdge_assemble
  neighbors?_eq _ hq := if_pos hq
  mem_neighbors_iff _ _ := mem_neighbors
  ascending := pairwise_neighbors _
  symmetric q p h := by
    rw [mem_neighbors] at h ⊢
    rwa [hasEdge_comm]
  irreflexive q h := ne_of_hasEdge (mem_neighbors.mp h) rfl
  vertexOf?_iff q v := vertexOf?_eq_ok_iff
  qubitAt?_iff q v := qubitAt?_eq_ok_iff

/-- **Building a graph and writing it down.** A list of couplings with a labelling is accepted if
the labelling is a permutation, every coupling joins two different vertices, and these are
connected. The graph then presents the couplings, and it is the graph of any other list of the same
couplings, in whatever order and direction and however often. A graph from any constructor is the
graph of its document, which is read back from its value; so all that is computed from it, such as
its distances, shortest paths and order of elimination, is the same. -/
theorem construction_specification (name : String) (n : ℕ) (edges : List (ℕ × ℕ))
    (labelling : List ℕ) :
    ((∃ G, ofLabelled name n edges labelling = .ok G) ↔
      labelling.Perm (List.range n) ∧ (∀ e ∈ edges, e.1 < n ∧ e.2 < n ∧ e.1 ≠ e.2) ∧
        (vertexGraph n edges).Preconnected) ∧
      (∀ G, ofLabelled name n edges labelling = .ok G →
        G.Presents n edges labelling ∧
          ∀ edges', (∀ u v, Couples edges' u v ↔ Couples edges u v) →
            ofLabelled name n edges' labelling = .ok G) ∧
      ∀ G, Built G →
        G.toSpec.toGraph = .ok G ∧ CouplingSpec.ofJson? G.toSpec.toJson = some G.toSpec := by
  refine ⟨⟨?_, ?_⟩, ?_, ?_⟩
  · rintro ⟨G, h⟩
    obtain ⟨hl, he, hconnected, _⟩ := ofLabelled_eq_ok_iff.mp h
    exact ⟨hl.perm_range, he, hconnected⟩
  · rintro ⟨hperm, he, hconnected⟩
    exact ⟨_, ofLabelled_eq_ok_iff.mpr
      ⟨(isPermutation_range n).of_perm hperm, he, hconnected, rfl⟩⟩
  · intro G h
    obtain ⟨hl, he, hconnected, rfl⟩ := ofLabelled_eq_ok_iff.mp h
    exact ⟨presents_assemble hl he, fun edges' hedges => ofLabelled_congr hedges h⟩
  · intro G h
    exact ⟨h.encodable.toGraph_toSpec, h.encodable.ofJson?_toJson⟩

/-- Three vertices in a row, vertex 1 in the middle, one coupling listed twice. Qubits 0, 1 and 2
sit on vertices 2, 0 and 1, so qubit 2 is in the middle and its document has a labelling. -/
theorem construction_specification_row :
    ∃ G, ofLabelled "row" 3 [(2, 1), (0, 1), (1, 2)] [2, 0, 1] = .ok G ∧
      G.Presents 3 [(2, 1), (0, 1), (1, 2)] [2, 0, 1] ∧
      G.toSpec = ⟨"row", 3, [(0, 1), (1, 2)], some [2, 0, 1]⟩ ∧
      ofLabelled "row" 3 [(1, 0), (1, 2)] [2, 0, 1] = .ok G ∧
      G.toSpec.toGraph = .ok G ∧ CouplingSpec.ofJson? G.toSpec.toJson = some G.toSpec := by
  have hcouples : ∀ u v, Couples [(1, 0), (1, 2)] u v ↔ Couples [(2, 1), (0, 1), (1, 2)] u v := by
    intro u v
    simp only [Couples, List.mem_cons, Prod.mk.injEq, List.not_mem_nil, or_false]
    omega
  obtain ⟨_, hgraph, hbuilt⟩ :=
    construction_specification "row" 3 [(2, 1), (0, 1), (1, 2)] [2, 0, 1]
  let G := assemble "row" 3 [2, 0, 1] [(2, 1), (0, 1), (1, 2)] (by decide) (by simp [IsCoupling])
  have hconnected : G.isConnected = true := by decide
  have hG : ofLabelled "row" 3 [(2, 1), (0, 1), (1, 2)] [2, 0, 1] = .ok G :=
    ofLabelled_eq_ok_iff.mpr ⟨_, _, isConnected_assemble.mp hconnected, rfl⟩
  obtain ⟨hpresents, hsame⟩ := hgraph G hG
  have hheld : [2, 0, 1].length < addressLimit := by decide
  exact ⟨G, hG, hpresents, by decide, hsame _ hcouples, hbuilt G (.labelled hheld hG)⟩

end CouplingGraph

end CnotSynthesis
