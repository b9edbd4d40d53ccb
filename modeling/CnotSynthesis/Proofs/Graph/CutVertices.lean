import CnotSynthesis.Proofs.Graph.Connectivity
import CnotSynthesis.Proofs.Sorting

/-! # Qubits without which the others stay connected

* **`ConnectedOn.exists_diff_ne`** — of a connected set with another qubit than `a`, some qubit
  other than `a` can be taken away. Applied to a qubit that can be taken away it gives a second one.
* **`CouplingGraph.staysConnected_iff_of_lists`** — the walk through the others may start at any of
  them: the members may be listed in any order.
* **`CouplingGraph.removable_specification`** — what `removable` answers, for every graph and every
  list of its qubits. -/

namespace CnotSynthesis.CouplingGraph

variable {G : CouplingGraph} {S : Set ℕ}

/-! ## Two qubits that can be taken away -/

/-- Connected sets are those that induce a connected graph, and the empty one. -/
theorem connectedOn_iff_connected :
    G.ConnectedOn S ↔ S = ∅ ∨ (G.toSimpleGraph.induce S).Connected := by
  constructor
  · intro h
    rcases S.eq_empty_or_nonempty with hempty | hne
    · exact .inl hempty
    · have : Nonempty S := hne.to_subtype
      exact .inr ⟨h⟩
  · rintro (rfl | h)
    · exact fun a => a.2.elim
    · exact h.preconnected

/-- A qubit of a connected set with others is coupled to one of them. -/
theorem ConnectedOn.exists_hasEdge (h : G.ConnectedOn S) {a b : ℕ} (ha : a ∈ S) (hb : b ∈ S)
    (hab : a ≠ b) : ∃ u ∈ S, G.hasEdge a u = true := by
  rcases (connectedOn_iff.mp h a ha b hb).cases_head with heq | ⟨u, hstep, _⟩
  · exact absurd heq hab
  · exact ⟨u, hstep.1, hstep.2⟩

/-- **Something else can be taken away**: of a connected set with two qubits or more, a qubit other
than the given one. -/
theorem ConnectedOn.exists_diff_ne (hfinite : S.Finite) (h : G.ConnectedOn S) {a b : ℕ} (ha : a ∈ S)
    (hb : b ∈ S) (hab : a ≠ b) : ∃ q ∈ S, q ≠ a ∧ G.ConnectedOn (S \ {q}) := by
  induction hk : S.ncard using Nat.strong_induction_on generalizing S a b with
  | _ k ih =>
    obtain ⟨q, hq, hrest⟩ := h.exists_diff hfinite ⟨a, ha⟩
    by_cases hqa : q = a
    · -- `a` itself may go: look among the rest for a qubit other than a neighbour `u` of `a`
      subst hqa
      obtain ⟨u, hu, hedge⟩ := h.exists_hasEdge ha hb hab
      have huq : u ≠ q := (ne_of_hasEdge hedge).symm
      by_cases hother : ∃ v ∈ S \ {q}, u ≠ v
      · obtain ⟨v, hv, huv⟩ := hother
        have hlt : (S \ {q}).ncard < k := hk ▸ Set.ncard_sdiff_singleton_lt_of_mem hq hfinite
        obtain ⟨w, hw, hwu, hrest'⟩ :=
          ih _ hlt (hfinite.subset Set.sdiff_subset) hrest ⟨hu, huq⟩ hv huv rfl
        refine ⟨w, hw.1, hw.2, ?_⟩
        have hset : Insert.insert q ((S \ {q}) \ {w}) = S \ {w} := by
          have hqw : q ≠ w := Ne.symm hw.2
          ext x
          by_cases hx : x = q <;> simp [hx, hq, hqw]
        rw [← hset]
        exact hrest'.insert ⟨⟨hu, huq⟩, hwu.symm⟩ hedge
      · push Not at hother
        refine ⟨u, hu, huq, ?_⟩
        have hset : S \ {u} = {q} := by
          ext x
          constructor
          · rintro ⟨hx, hxu⟩
            by_contra hxq
            exact hxu (hother x ⟨hx, hxq⟩).symm
          · rintro rfl
            exact ⟨hq, huq.symm⟩
        rw [hset]
        exact connectedOn_singleton q
    · exact ⟨q, hq, hqa, hrest⟩

/-! ## Where the walk starts -/

variable {subset : List ℕ}

/-- **The walk may start anywhere**: whether the other members are connected does not depend on the
order in which the members are listed. -/
theorem staysConnected_iff_of_lists (hsubset : ∀ q ∈ subset, q < G.size) {order : List ℕ}
    (hnodup : order.Nodup) (horder : ∀ p, p ∈ order ↔ p ∈ subset) (q : ℕ) :
    G.staysConnected order q = true ↔ G.ConnectedOn {p | p ∈ subset ∧ p ≠ q} := by
  have hset : {p | p ∈ order.filter (· != q)} = {p | p ∈ subset ∧ p ≠ q} := by
    ext p
    simp [horder]
  rw [staysConnected_iff hnodup (fun p hp => hsubset p ((horder p).mp hp)), hset]

/-- The removable qubits are listed in ascending order. -/
theorem pairwise_removable (G : CouplingGraph) (subset : List ℕ) :
    (G.removable subset).Pairwise (· < ·) :=
  (List.pairwise_lt_range.filter _).filter _

/-- Removable qubits are those that leave the others connected. -/
theorem mem_removable_iff_connectedOn (hsubset : ∀ q ∈ subset, q < G.size) {q : ℕ} :
    q ∈ G.removable subset ↔ q ∈ subset ∧ G.ConnectedOn {p | p ∈ subset ∧ p ≠ q} := by
  have hset : {p | p ∈ subset.filter (· != q)} = {p | p ∈ subset ∧ p ≠ q} := by
    ext p
    simp
  rw [mem_removable_iff hsubset, hset]

/-- A connected subset with two qubits has two removable ones. -/
theorem two_le_length_removable (hsubset : ∀ q ∈ subset, q < G.size)
    (h : G.ConnectedOn {q | q ∈ subset}) (htwo : 2 ≤ subset.toFinset.card) :
    2 ≤ (G.removable subset).length := by
  obtain ⟨a, ha, b, hb, hab⟩ := Finset.one_lt_card.mp htwo
  rw [List.mem_toFinset] at ha hb
  obtain ⟨q, hq⟩ := exists_mem_removable hsubset (List.ne_nil_of_mem ha) h
  have hqsubset := ((mem_removable_iff_connectedOn hsubset).mp hq).1
  -- one of the two is not `q`, so there is a second qubit that can be taken away
  obtain ⟨c, hc, hqc⟩ : ∃ c ∈ subset, q ≠ c := by
    by_cases hqa : q = a
    · exact ⟨b, hb, hqa ▸ hab⟩
    · exact ⟨a, ha, hqa⟩
  obtain ⟨p, hp, hpq, hrest⟩ := h.exists_diff_ne subset.finite_toSet hqsubset hc hqc
  have hp' : p ∈ G.removable subset := (mem_removable_iff_connectedOn hsubset).mpr ⟨hp, hrest⟩
  have hsub : [p, q] ⊆ G.removable subset := by simp [hp', hq]
  exact (List.subperm_of_subset (by simpa using hpq) hsub).length_le

/-- **Removable qubits.** For every graph and every list of its qubits, in whatever order, repeated
or not, connected or not: the answer lists, strictly ascending, exactly the qubits of the list
without which the rest of it induces a connected graph or is empty. Wherever the walks through the
rest start, that is in whatever order the members are taken for each qubit, the answer is the same.
A list that induces a connected graph has a removable qubit, and two if it has two qubits. -/
theorem removable_specification (G : CouplingGraph) {subset : List ℕ}
    (hsubset : ∀ q ∈ subset, q < G.size) :
    G.removable? subset = .ok (G.removable subset) ∧
    (G.removable subset).Pairwise (· < ·) ∧
    (∀ q, q ∈ G.removable subset ↔ q ∈ subset ∧ ({p | p ∈ subset ∧ p ≠ q} = ∅ ∨
      (G.toSimpleGraph.induce {p | p ∈ subset ∧ p ≠ q}).Connected)) ∧
    (∀ order : ℕ → List ℕ, (∀ q, (order q).Nodup ∧ ∀ p, p ∈ order q ↔ p ∈ subset) →
      sortDistinct (fun a b => decide (a < b))
        (subset.filter fun q => G.staysConnected (order q) q) =
        G.removable subset) ∧
    ((G.toSimpleGraph.induce {q | q ∈ subset}).Connected → G.removable subset ≠ [] ∧
      (2 ≤ subset.toFinset.card → 2 ≤ (G.removable subset).length)) := by
  refine ⟨if_pos (by simpa using hsubset), pairwise_removable G subset, ?_, ?_, ?_⟩
  · intro q
    rw [mem_removable_iff_connectedOn hsubset, connectedOn_iff_connected]
  · intro order horder
    refine orders_lt.eq_of_mem_iff (pairwise_sortDistinct orders_lt _)
      ((pairwise_removable G subset).imp fun hab => decide_eq_true hab) fun q => ?_
    rw [mem_sortDistinct, List.mem_filter, mem_removable_iff_connectedOn hsubset,
      staysConnected_iff_of_lists hsubset (horder q).1 (horder q).2]
  · intro hconnected
    have h : G.ConnectedOn {q | q ∈ subset} := hconnected.preconnected
    obtain ⟨q, hq⟩ := hconnected.nonempty
    obtain ⟨p, hp⟩ := exists_mem_removable hsubset (List.ne_nil_of_mem hq) h
    exact ⟨List.ne_nil_of_mem hp, two_le_length_removable hsubset h⟩

/-- On a line, the inner qubits named twice and out of order: only the outer ones can be taken away,
also when the walks start at the far end. -/
theorem removable_specification_line :
    (∀ q ∈ [3, 1, 2, 1, 2], q < (line 5).size) ∧
      (line 5).removable? [3, 1, 2, 1, 2] = .ok [1, 3] ∧
      sortDistinct (fun a b => decide (a < b))
        ([3, 1, 2, 1, 2].filter fun q => (line 5).staysConnected [3, 2, 1] q) = [1, 3] := by
  have hsubset : ∀ q ∈ [3, 1, 2, 1, 2], q < (line 5).size := by decide
  have hremovable : (line 5).removable [3, 1, 2, 1, 2] = [1, 3] := by decide
  obtain ⟨hok, _, _, hstart, _⟩ := removable_specification (line 5) hsubset
  rw [hremovable] at hok hstart
  exact ⟨hsubset, hok, hstart (fun _ => [3, 2, 1]) fun _ => ⟨by decide, by simp; omega⟩⟩

end CnotSynthesis.CouplingGraph
