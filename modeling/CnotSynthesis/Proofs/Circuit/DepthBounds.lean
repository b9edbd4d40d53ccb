import CnotSynthesis.Proofs.Circuit.Inverse
import CnotSynthesis.Proofs.Circuit.Layering

/-! # Bounds on the depth of a circuit

The depth is the least number of layers of any layering (`Circuit.isLeast_depth`), so what holds of
the number of layers of every layering, or of some, bounds it.

* **`Circuit.IsLayering.length_le_of_isChain`** — gates that share a wire each with the next are in
  different layers, so a layering has at least as many layers.
* **`Circuit.depth_inverse`** — the reversed circuit is as deep: a layering can be read backwards.
* **`Circuit.two_mul_length_le`** — a layer of gates on `n` wires has at most `n / 2` of them;
  **`Circuit.WellFormed.count_le`** — so a circuit has at most as many gates per layer.
* **`Circuit.depth_specification`** — the depth of a well-formed circuit. -/

namespace CnotSynthesis

namespace Circuit

variable {c : Circuit} {gates : List Gate} {layers : List (List Gate)}

/-- **Layers without gates can be left out.** -/
theorem IsLayering.filter_nonempty (h : IsLayering gates layers) :
    IsLayering gates (layers.filter fun layer => !layer.isEmpty) where
  flatten_eq := by rw [List.flatten_filter_not_isEmpty, h.flatten_eq]
  apart := fun layer hlayer => h.apart layer (List.mem_of_mem_filter hlayer)

/-- The least number of layers is reached without empty ones. -/
theorem isLeast_depth_nonempty (c : Circuit) :
    IsLeast {k | ∃ layers, IsLayering c.gates layers ∧ [] ∉ layers ∧ layers.length = k}
      c.depth := by
  constructor
  · obtain ⟨layers, hlayering, hlength⟩ := c.isLeast_depth.1
    have hle := hlayering.filter_nonempty.depth_le
    have hge := List.length_filter_le (fun layer : List Gate => !layer.isEmpty) layers
    exact ⟨_, hlayering.filter_nonempty, by simp, by omega⟩
  · rintro _ ⟨layers, hlayering, _, rfl⟩
    exact hlayering.depth_le

/-! ## Chains of gates -/

/-- **A chain has a layer for each gate**: of gates in circuit order that share a wire each with the
next, no two are in one layer. -/
theorem IsLayering.length_le_of_isChain (h : IsLayering gates layers) {chain : List Gate}
    (hsub : chain.Sublist gates) (hchain : chain.IsChain fun g h => ¬ g.Apart h) :
    chain.length ≤ layers.length := by
  obtain ⟨rfl, hapart⟩ := h
  induction layers generalizing chain with
  | nil => simp [List.sublist_nil.mp hsub]
  | cons layer layers ih =>
    obtain ⟨hlayer, hlayers⟩ := List.forall_mem_cons.mp hapart
    obtain ⟨front, back, rfl, hfront, hback⟩ := List.sublist_append_iff.mp hsub
    have hrest := ih hchain.right_of_append hlayers hback
    -- two gates of the chain in the first layer would be next to each other, yet apart
    have hone : front.length ≤ 1 := by
      match front, hlayer.sublist hfront, hchain.left_of_append with
      | [], _, _ => exact Nat.zero_le 1
      | [_], _, _ => exact Nat.le_refl 1
      | g :: g' :: _, hpairwise, hshared =>
        exact absurd (List.rel_of_pairwise_cons hpairwise List.mem_cons_self)
          (List.isChain_cons_cons.mp hshared).1
    rw [List.length_append, List.length_cons]
    omega

/-! ## Reversed circuits -/

/-- Reversed, a circuit is at most as deep. -/
theorem depth_inverse_le (c : Circuit) : c.inverse.depth ≤ c.depth := by
  obtain ⟨layers, hlayering, hlength⟩ := c.isLeast_depth.1
  have hreversed := hlayering.reverse_map (f := id) fun _ _ h => h
  rw [List.map_id] at hreversed
  have hle := IsLayering.depth_le (c := c.inverse) hreversed
  rwa [List.length_reverse, List.length_map, hlength] at hle

/-- **Reversing a circuit keeps its depth.** -/
theorem depth_inverse (c : Circuit) : c.inverse.depth = c.depth := by
  refine Nat.le_antisymm c.depth_inverse_le ?_
  have hback : c.inverse.inverse.depth = c.depth := by
    simp [depth, inverse]
  rw [← hback]
  exact c.inverse.depth_inverse_le

/-! ## Numbers of gates -/

/-- **A layer uses two wires a gate.** -/
theorem two_mul_length_le {n : ℕ} {layer : List Gate} (hgates : ∀ g ∈ layer, IsGate n g)
    (hlayer : layer.Pairwise Gate.Apart) : 2 * layer.length ≤ n := by
  let wires := layer.flatMap fun g => [g.control, g.target]
  have hlength : wires.length = 2 * layer.length := by
    simp [wires, Nat.mul_comm]
  have hnodup : wires.Nodup := by
    refine List.nodup_flatMap.mpr ⟨fun g hg => by simpa using (hgates g hg).2.2, ?_⟩
    refine hlayer.imp fun {g h} hgh => ?_
    simp only [Gate.Apart, Gate.touches, Bool.or_eq_false_iff, beq_eq_false_iff_ne] at hgh
    intro w hg hh
    grind
  have hwires : wires ⊆ List.range n := by
    intro w hw
    obtain ⟨g, hg, hw⟩ := List.mem_flatMap.mp hw
    obtain ⟨hcontrol, htarget, _⟩ := hgates g hg
    rcases List.mem_pair.mp hw with rfl | rfl
    · exact List.mem_range.mpr hcontrol
    · exact List.mem_range.mpr htarget
  have hle := (hnodup.subperm hwires).length_le
  rwa [hlength, List.length_range] at hle

/-- One layer for each gate is a layering. -/
theorem depth_le_count (c : Circuit) : c.depth ≤ c.count := by
  have hlayering : IsLayering c.gates (c.gates.map fun g => [g]) :=
    ⟨List.flatMap_singleton' c.gates, by simp⟩
  exact hlayering.depth_le.trans_eq (List.length_map _)

/-- A circuit has at most half as many gates in a layer as it has wires. -/
theorem WellFormed.count_le (h : c.WellFormed) : c.count ≤ c.depth * (c.qubits / 2) := by
  obtain ⟨layers, ⟨hgates, hapart⟩, hlength⟩ := c.isLeast_depth.1
  have hlayer : ∀ k ∈ layers.map List.length, k ≤ c.qubits / 2 := by
    intro k hk
    obtain ⟨layer, hmem, rfl⟩ := List.mem_map.mp hk
    have hle := two_mul_length_le (fun g hg => h.gates g (hgates ▸ List.mem_flatten_of_mem hmem hg))
      (hapart layer hmem)
    omega
  have hsum := List.sum_le_card_nsmul _ _ hlayer
  rwa [← List.length_flatten, hgates, List.length_map, hlength, smul_eq_mul] at hsum

/-! ## The depth -/

/-- A circuit without gates needs no list of its wires. -/
theorem WellFormed.checkedDepth_eq (h : c.WellFormed) :
    c.checkedDepth =
      (if c.gates = [] then .ok () else requireRoom c.qubits).map fun _ => c.depth := by
  have hinside : (c.gates.all fun g => g.control < c.qubits && g.target < c.qubits) = true := by
    simpa using fun g hg => ⟨(h.gates g hg).1, (h.gates g hg).2.1⟩
  unfold checkedDepth
  by_cases hnone : c.gates = []
  · have hzero : c.depth = 0 := by rw [depth, hnone]; rfl
    rw [if_pos (by rw [hnone]; rfl), if_pos hnone, hzero]
    rfl
  · rw [if_neg (by simpa using hnone), if_neg hnone, hinside]
    cases requireRoom c.qubits <;> rfl

/-- **The depth of a well-formed circuit** is the least number of layers into which its gates can be
cut. So it is at least the number of gates of any chain in which each shares a wire with the next,
it is the depth of the reversed circuit, and for each layer there are at least one gate and at most
half as many gates as wires. It is found whenever the wires can be listed, and without gates in any
case. -/
theorem depth_specification (hc : c.WellFormed) :
    c.checkedDepth =
      (if c.gates = [] then .ok () else requireRoom c.qubits).map (fun _ => c.depth) ∧
    IsLeast {k | ∃ layers, IsLayering c.gates layers ∧ [] ∉ layers ∧ layers.length = k} c.depth ∧
    (∀ chain : List Gate, chain.Sublist c.gates → (chain.IsChain fun g h => ¬ g.Apart h) →
      chain.length ≤ c.depth) ∧
    c.inverse.depth = c.depth ∧ c.inverse.checkedDepth = c.checkedDepth ∧
    c.depth ≤ c.count ∧ c.count ≤ c.depth * (c.qubits / 2) := by
  refine ⟨hc.checkedDepth_eq, c.isLeast_depth_nonempty, ?_, c.depth_inverse, ?_, c.depth_le_count,
    hc.count_le⟩
  · intro chain hsub hchain
    obtain ⟨layers, hlayering, hlength⟩ := c.isLeast_depth.1
    exact hlength ▸ hlayering.length_le_of_isChain hsub hchain
  · rw [hc.inverse.checkedDepth_eq, hc.checkedDepth_eq, depth_inverse]
    simp [inverse]

/-- Five gates on four wires: the greedy layers are three, and three gates form a chain. -/
theorem depth_specification_four :
    let c : Circuit := ⟨4, [⟨0, 1⟩, ⟨2, 3⟩, ⟨1, 2⟩, ⟨0, 3⟩, ⟨3, 0⟩], none⟩
    let chain : List Gate := [⟨2, 3⟩, ⟨0, 3⟩, ⟨3, 0⟩]
    c.WellFormed ∧ chain.Sublist c.gates ∧ c.checkedDepth = .ok 3 ∧
      c.inverse.checkedDepth = .ok 3 ∧ chain.length ≤ c.depth ∧
      c.count ≤ c.depth * (c.qubits / 2) := by
  intro c chain
  have hc : c.WellFormed := ⟨by simp [c, IsGate], by simp [c]⟩
  have hsub : chain.Sublist c.gates := by decide
  obtain ⟨hdepth, _, hchains, _, hinverse, _, hcount⟩ := depth_specification hc
  have hthree : c.checkedDepth = .ok 3 := hdepth.trans (by decide)
  refine ⟨hc, hsub, hthree, hinverse.trans hthree, hchains chain hsub ?_, hcount⟩
  simp [chain, Gate.Apart, Gate.touches]

end Circuit

end CnotSynthesis
