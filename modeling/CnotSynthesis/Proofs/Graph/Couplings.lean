import CnotSynthesis.Proofs.Graph.Connectivity
import CnotSynthesis.Proofs.Permutation
import CnotSynthesis.Proofs.Sorting

/-! # Graphs put together from listed couplings

* **`Couples edges u v`** — the vertices `u` and `v` are listed together, in either order. This is
  all that the normal form of a list depends on (`normalEdges_congr`).
* **`CouplingGraph.eq_of_fields`** — a graph is known by its name, size, labelling and couplings.
* **`CouplingGraph.hasEdge_assemble`** — qubits are coupled if the vertices they sit on are listed.
* **`CouplingGraph.isConnected_assemble`** — the qubits are connected if the vertices are. -/

namespace CnotSynthesis

variable {edges edges' : List (ℕ × ℕ)} {u v : ℕ}

/-! ## Lists of couplings -/

/-- **Listed couplings**, whichever vertex comes first. -/
def Couples (edges : List (ℕ × ℕ)) (u v : ℕ) : Prop := (u, v) ∈ edges ∨ (v, u) ∈ edges

/-- Couplings have no direction. -/
theorem couples_comm : Couples edges u v ↔ Couples edges v u := or_comm

/-- Two pairs are oriented alike if they are equal or turned around. -/
theorem orient_eq_orient_iff {e : ℕ × ℕ} : orient (u, v) = orient e ↔ e = (u, v) ∨ e = (v, u) := by
  obtain ⟨a, b⟩ := e
  simp only [orient, Prod.mk.injEq]
  omega

/-- A pair, oriented, is among the normal couplings if it is coupled. -/
theorem orient_mem_normalEdges : orient (u, v) ∈ normalEdges edges ↔ Couples edges u v := by
  rw [mem_normalEdges]
  constructor
  · rintro ⟨e, he, heq⟩
    rcases orient_eq_orient_iff.mp heq with rfl | rfl
    · exact .inl he
    · exact .inr he
  · rintro (h | h)
    · exact ⟨(u, v), h, rfl⟩
    · exact ⟨(v, u), h, CouplingGraph.orient_comm u v⟩

/-- The normal form lists the couplings with the smaller vertex first. -/
theorem mem_normalEdges_iff : (u, v) ∈ normalEdges edges ↔ u ≤ v ∧ Couples edges u v := by
  rw [← orient_mem_normalEdges]
  constructor
  · intro h
    obtain ⟨e, _, heq⟩ := mem_normalEdges.mp h
    have hle : u ≤ v := by
      simp only [orient, Prod.mk.injEq] at heq
      omega
    exact ⟨hle, by simpa [orient, hle] using h⟩
  · rintro ⟨hle, h⟩
    simpa [orient, hle] using h

/-- **The normal form depends on the couplings only**, not on their order, direction and
repetition. -/
theorem normalEdges_congr (h : ∀ u v, Couples edges u v ↔ Couples edges' u v) :
    normalEdges edges = normalEdges edges' := by
  refine orders_pairBefore.eq_of_mem_iff (pairwise_sortDistinct orders_pairBefore _)
    (pairwise_sortDistinct orders_pairBefore _) ?_
  rintro ⟨u, v⟩
  exact mem_normalEdges_iff.trans ((and_congr_right fun _ => h u v).trans mem_normalEdges_iff.symm)

/-- The normal form couples the same vertices. -/
theorem couples_normalEdges : Couples (normalEdges edges) u v ↔ Couples edges u v := by
  unfold Couples
  rw [mem_normalEdges_iff, mem_normalEdges_iff, couples_comm (u := v)]
  constructor
  · rintro (h | h) <;> exact h.2
  · intro h
    exact (le_total u v).imp (⟨·, h⟩) (⟨·, h⟩)

/-- A normal form is its own normal form. -/
theorem normalEdges_normalEdges (edges : List (ℕ × ℕ)) :
    normalEdges (normalEdges edges) = normalEdges edges :=
  normalEdges_congr fun _ _ => couples_normalEdges

/-- The vertices `0..n` and the listed couplings between them, as a simple graph. -/
def vertexGraph (n : ℕ) (edges : List (ℕ × ℕ)) : SimpleGraph (Fin n) :=
  SimpleGraph.fromRel fun u v => (u.1, v.1) ∈ edges

namespace CouplingGraph

/-! ## Graphs from their couplings -/

/-- **A graph is known by its name, size, labelling and couplings**: the rest is computed from
them. -/
theorem eq_of_fields {G H : CouplingGraph} (hname : G.name = H.name) (hsize : G.size = H.size)
    (hlabelling : G.labelling = H.labelling) (hedges : G.edges = H.edges) : G = H := by
  have htable : G.neighborTable = H.neighborTable := by
    rw [G.neighborTable_eq, H.neighborTable_eq, hsize, hlabelling, hedges]
  have horder : G.eliminationOrder = H.eliminationOrder := by
    rw [G.eliminationOrder_eq, H.eliminationOrder_eq, hsize, hlabelling, hedges]
  cases G
  cases H
  simp only at hname hsize hlabelling hedges htable horder
  subst hname hsize hlabelling hedges htable horder
  rfl

/-- The qubits of a graph and the vertices they sit on. -/
def vertexEquiv (G : CouplingGraph) : {q | q < G.size} ≃ Fin G.size where
  toFun q := ⟨G.vertexOf q, G.labelling_perm.getD_lt q.2⟩
  invFun v := ⟨G.qubits.getD v 0, G.labelling_perm.inverse.getD_lt v.2⟩
  left_inv q := Subtype.ext (G.labelling_perm.getD_inverse q.2)
  right_inv v := Fin.ext (G.labelling_perm.getD_getD_inverse v.2)

/-- The vertex of a qubit is read off the labelling. -/
theorem vertexOf?_eq_ok_iff {G : CouplingGraph} {q v : ℕ} :
    G.vertexOf? q = .ok v ↔ G.labelling[q]? = some v := by
  have hlen := G.labelling_perm.length_eq
  unfold vertexOf? vertexOf
  split
  · next hq =>
    rw [List.getD_eq_getElem _ _ (by omega), List.getElem?_eq_getElem (by omega), Except.ok.injEq,
      Option.some.injEq]
  · next hq =>
    rw [List.getElem?_eq_none (by omega)]
    exact ⟨nofun, nofun⟩

/-- The qubit of a vertex is the one that sits on it. -/
theorem qubitAt?_eq_ok_iff {G : CouplingGraph} {q v : ℕ} :
    G.qubitAt? v = .ok q ↔ G.vertexOf? q = .ok v := by
  have hperm := G.labelling_perm
  unfold qubitAt? vertexOf?
  constructor
  · intro h
    split at h
    · next hv =>
      obtain rfl := Except.ok.inj h
      exact (if_pos (hperm.inverse.getD_lt hv)).trans (congrArg _ (hperm.getD_getD_inverse hv))
    · cases h
  · intro h
    split at h
    · next hq =>
      obtain rfl := Except.ok.inj h
      exact (if_pos (hperm.getD_lt hq)).trans (congrArg _ (hperm.getD_inverse hq))
    · cases h

section Assemble

variable {name : String} {n : ℕ} {labelling : List ℕ} {hl : IsPermutation labelling n}
  {he : ∀ e ∈ edges, IsCoupling n e}

/-- **Two qubits are coupled** if the vertices they sit on are listed, in either order. -/
theorem hasEdge_assemble {a b : ℕ} : (assemble name n labelling edges hl he).hasEdge a b = true ↔
    ∃ u v, labelling[a]? = some u ∧ labelling[b]? = some v ∧ Couples edges u v := by
  have hlt : ∀ q, q < n ↔ ∃ u, labelling[q]? = some u := by
    intro q
    rw [← hl.length_eq]
    exact ⟨fun hq => ⟨_, List.getElem?_eq_getElem hq⟩,
      fun ⟨u, hu⟩ => (List.getElem?_eq_some_iff.mp hu).1⟩
  have hvertex : ∀ {q u}, labelling[q]? = some u →
      (assemble name n labelling edges hl he).vertexOf q = u := by
    intro q u hu
    change labelling.getD q 0 = u
    rw [List.getD_eq_getElem?_getD, hu, Option.getD_some]
  rw [hasEdge_iff]
  change (a < n ∧ b < n ∧ orient _ ∈ normalEdges edges) ↔ _
  rw [orient_mem_normalEdges, hlt a, hlt b]
  constructor
  · rintro ⟨⟨u, hu⟩, ⟨v, hv⟩, h⟩
    rw [hvertex hu, hvertex hv] at h
    exact ⟨u, v, hu, hv, h⟩
  · rintro ⟨u, v, hu, hv, h⟩
    rw [hvertex hu, hvertex hv]
    exact ⟨⟨u, hu⟩, ⟨v, hv⟩, h⟩

/-- With qubit `q` on vertex `q`, the coupled qubits are the listed pairs. -/
theorem hasEdge_assemble_range {hl : IsPermutation (List.range n) n} {a b : ℕ} :
    (assemble name n (List.range n) edges hl he).hasEdge a b = true ↔
      a < n ∧ b < n ∧ Couples edges a b := by
  rw [hasEdge_assemble]
  simp only [List.getElem?_eq_some_iff, List.length_range, List.getElem_range]
  constructor
  · rintro ⟨_, _, ⟨ha, rfl⟩, ⟨hb, rfl⟩, h⟩
    exact ⟨ha, hb, h⟩
  · rintro ⟨ha, hb, h⟩
    exact ⟨a, b, ⟨ha, rfl⟩, ⟨hb, rfl⟩, h⟩

/-- Qubits are coupled as their vertices are. -/
def vertexIso (name : String) (hl : IsPermutation labelling n) (he : ∀ e ∈ edges, IsCoupling n e) :
    (assemble name n labelling edges hl he).toSimpleGraph.induce {q | q < n} ≃g
      vertexGraph n edges where
  toEquiv := (assemble name n labelling edges hl he).vertexEquiv
  map_rel_iff' := by
    rintro ⟨a, ha⟩ ⟨b, hb⟩
    have hget : ∀ {q} (hq : q < n), labelling[q]? = some (labelling.getD q 0) := by
      intro q hq
      rw [List.getD_eq_getElem _ _ (by rwa [hl.length_eq]), List.getElem?_eq_getElem]
    have hcoupled : (assemble name n labelling edges hl he).hasEdge a b = true ↔
        Couples edges (labelling.getD a 0) (labelling.getD b 0) := by
      rw [hasEdge_assemble, hget ha, hget hb]
      simp
    change (vertexGraph n edges).Adj ⟨labelling.getD a 0, _⟩ ⟨labelling.getD b 0, _⟩ ↔ _
    rw [vertexGraph, SimpleGraph.fromRel_adj]
    refine Iff.trans ?_ hcoupled.symm
    refine ⟨fun h => h.2, fun h => ⟨?_, h⟩⟩
    -- listed couplings join different vertices
    intro heq
    have heq : labelling.getD a 0 = labelling.getD b 0 := congrArg Fin.val heq
    rcases h with h | h
    · exact (he _ h).2.2 heq
    · exact (he _ h).2.2 heq.symm

/-- **The qubits are connected** if the vertices are, whatever the labelling. -/
theorem isConnected_assemble : (assemble name n labelling edges hl he).isConnected = true ↔
    (vertexGraph n edges).Preconnected := by
  rw [isConnected_iff]
  exact (vertexIso name hl he).preconnected_iff

end Assemble

end CouplingGraph

end CnotSynthesis
