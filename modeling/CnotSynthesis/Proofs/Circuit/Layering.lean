import CnotSynthesis.Circuit.Metric
import Mathlib.Order.Bounds.Basic

/-! # Layers of a circuit

A layering cuts the gates of a circuit into contiguous layers of gates that share no wire. The depth
comes from one layering, made greedily from the left, but it does not depend on where one starts:
it is the least number of layers of any layering.

* **`Gate.Apart g h`** — the gates share no wire.
* **`Circuit.IsLayering gates layers`** — the layers are the gates, cut into pieces.
* **`Circuit.layersFrom_flatten_le`**, **`Circuit.exists_layers`** — the greedy number of layers is
  a lower bound, and some layering has it; together **`Circuit.isLeast_depth`**.
* **`Circuit.depth_transpose`**, **`Metric.score_transpose`** — a circuit turned around is as deep
  and costs as much, since a layering can be read from either end. -/

namespace CnotSynthesis

namespace Gate

/-- The gates share no wire. -/
def Apart (g h : Gate) : Prop := h.touches g.control = false ∧ h.touches g.target = false

/-- Gates are apart from each other. -/
theorem Apart.symm {g h : Gate} (hgh : g.Apart h) : h.Apart g := by
  simp only [Apart, touches, Bool.or_eq_false_iff, beq_eq_false_iff_ne] at *
  grind

/-- Gates that are apart stay so when flipped. -/
theorem Apart.flipped {g h : Gate} (hgh : g.Apart h) : g.flipped.Apart h.flipped := by
  simp only [Apart, touches, Gate.flipped, Bool.or_eq_false_iff, beq_eq_false_iff_ne] at *
  grind

end Gate

namespace Circuit

/-- **A layering** of a list of gates: contiguous layers, each of gates that share no wire. -/
structure IsLayering (gates : List Gate) (layers : List (List Gate)) : Prop where
  flatten_eq : layers.flatten = gates
  apart : ∀ layer ∈ layers, layer.Pairwise Gate.Apart

/-- A gate that finds its wires free joins the layer. -/
theorem layersFrom_cons_free {busy : List Nat} {g : Gate} (gates : List Gate)
    (h : busy.any g.touches = false) :
    layersFrom busy (g :: gates) = layersFrom (g.control :: g.target :: busy) gates := by
  rw [layersFrom, h]
  rfl

/-- A gate that does not begins the next one. -/
theorem layersFrom_cons_busy {busy : List Nat} {g : Gate} (gates : List Gate)
    (h : busy.any g.touches = true) :
    layersFrom busy (g :: gates) = 1 + layersFrom [g.control, g.target] gates := by
  rw [layersFrom, if_pos h]

/-- The wires of a gate are free for the gates that it is apart from. -/
theorem any_touches_cons {busy : List Nat} {g h : Gate} :
    (g.control :: g.target :: busy).any h.touches = false ↔
      g.Apart h ∧ busy.any h.touches = false := by
  simp only [List.any_cons, Bool.or_eq_false_iff, Gate.Apart, and_assoc]

/-- **A layer in front** begins at most one new layer, and none if it finds its wires free. -/
theorem layersFrom_append_le {rest : List Gate} {k : Nat} (hrest : ∀ busy, layersFrom busy rest ≤ k)
    (layer : List Gate) :
    ∀ busy, layer.Pairwise Gate.Apart → layersFrom busy (layer ++ rest) ≤ k + 1 ∧
      ((∀ g ∈ layer, busy.any g.touches = false) → layersFrom busy (layer ++ rest) ≤ k) := by
  induction layer with
  | nil => exact fun busy _ => ⟨(hrest busy).trans (Nat.le_succ k), fun _ => hrest busy⟩
  | cons g layer ih =>
    intro busy hlayer
    obtain ⟨hg, hlayer⟩ := List.pairwise_cons.mp hlayer
    rw [List.cons_append]
    cases hbusy : busy.any g.touches with
    | true =>
      -- the layer that `g` begins is free for the gates behind it
      have hnext := (ih [g.control, g.target] hlayer).2 fun h hh =>
        any_touches_cons.mpr ⟨hg h hh, rfl⟩
      rw [layersFrom_cons_busy _ hbusy]
      refine ⟨by omega, fun hfree => ?_⟩
      rw [hfree g List.mem_cons_self] at hbusy
      cases hbusy
    | false =>
      obtain ⟨hle, hfree⟩ := ih (g.control :: g.target :: busy) hlayer
      rw [layersFrom_cons_free _ hbusy]
      refine ⟨hle, fun h => hfree fun g' hg' => ?_⟩
      exact any_touches_cons.mpr ⟨hg g' hg', h g' (List.mem_cons_of_mem _ hg')⟩

/-- **Greedy layers are few**: whatever wires are in use, the gates of any layers begin at most as
many new ones. -/
theorem layersFrom_flatten_le {layers : List (List Gate)}
    (h : ∀ layer ∈ layers, layer.Pairwise Gate.Apart) (busy : List Nat) :
    layersFrom busy layers.flatten ≤ layers.length := by
  induction layers generalizing busy with
  | nil => exact Nat.le_refl 0
  | cons layer layers ih =>
    have hrest := ih fun l hl => h l (List.mem_cons_of_mem _ hl)
    exact (layersFrom_append_le hrest layer busy (h layer List.mem_cons_self)).1

/-- **Greedy layers are layers**: the gates are a part of the current layer, and as many layers as
are counted. -/
theorem exists_layers (gates : List Gate) :
    ∀ busy, ∃ (first : List Gate) (layers : List (List Gate)),
      IsLayering gates (first :: layers) ∧ layers.length = layersFrom busy gates ∧
        ∀ g ∈ first, busy.any g.touches = false := by
  induction gates with
  | nil => exact fun _ => ⟨[], [], ⟨rfl, by simp⟩, rfl, by simp⟩
  | cons g gates ih =>
    intro busy
    cases hbusy : busy.any g.touches with
    | true =>
      obtain ⟨first, layers, ⟨hgates, hapart⟩, hlength, hfree⟩ := ih [g.control, g.target]
      obtain ⟨hfirst, hlayers⟩ := List.forall_mem_cons.mp hapart
      have hlayer : (g :: first).Pairwise Gate.Apart :=
        List.pairwise_cons.mpr ⟨fun h hh => (any_touches_cons.mp (hfree h hh)).1, hfirst⟩
      refine ⟨[], (g :: first) :: layers, ⟨?_, ?_⟩, ?_, by simp⟩
      · rw [← hgates]
        rfl
      · simpa using ⟨List.pairwise_cons.mp hlayer, hlayers⟩
      · rw [layersFrom_cons_busy _ hbusy, List.length_cons, hlength, Nat.add_comm]
    | false =>
      obtain ⟨first, layers, ⟨hgates, hapart⟩, hlength, hfree⟩ := ih (g.control :: g.target :: busy)
      obtain ⟨hfirst, hlayers⟩ := List.forall_mem_cons.mp hapart
      refine ⟨g :: first, layers, ⟨?_, List.forall_mem_cons.mpr ⟨?_, hlayers⟩⟩, ?_, ?_⟩
      · rw [← hgates]
        rfl
      · exact List.pairwise_cons.mpr ⟨fun h hh => (any_touches_cons.mp (hfree h hh)).1, hfirst⟩
      · rw [layersFrom_cons_free _ hbusy, hlength]
      · exact List.forall_mem_cons.mpr ⟨hbusy, fun h hh => (any_touches_cons.mp (hfree h hh)).2⟩

/-- Every layering has at least as many layers as the circuit is deep. -/
theorem IsLayering.depth_le {c : Circuit} {layers : List (List Gate)}
    (h : IsLayering c.gates layers) : c.depth ≤ layers.length := by
  obtain ⟨hgates, hapart⟩ := h
  unfold depth
  split
  · exact Nat.zero_le _
  · next hsome =>
    -- the first layer finds all wires free
    cases layers with
    | nil => simp [← hgates] at hsome
    | cons layer layers =>
      obtain ⟨hlayer, hlayers⟩ := List.forall_mem_cons.mp hapart
      have hle := (layersFrom_append_le (layersFrom_flatten_le hlayers) layer [] hlayer).2 (by simp)
      rw [← hgates, List.flatten_cons, List.length_cons]
      omega

/-- **The depth is the least number of layers** into which the gates can be cut. -/
theorem isLeast_depth (c : Circuit) :
    IsLeast {k | ∃ layers, IsLayering c.gates layers ∧ layers.length = k} c.depth := by
  constructor
  · unfold depth
    split
    · next hnone => exact ⟨[], ⟨(List.isEmpty_iff.mp hnone).symm, by simp⟩, rfl⟩
    · obtain ⟨first, layers, hlayering, hlength, _⟩ := exists_layers c.gates []
      exact ⟨first :: layers, hlayering, by rw [List.length_cons, hlength, Nat.add_comm]⟩
  · rintro _ ⟨layers, hlayering, rfl⟩
    exact hlayering.depth_le

/-! ## Circuits turned around -/

/-- A layering read from the other end. -/
theorem IsLayering.reverse_map {gates : List Gate} {layers : List (List Gate)}
    (h : IsLayering gates layers) {f : Gate → Gate} (hf : ∀ g h, g.Apart h → (f g).Apart (f h)) :
    IsLayering (gates.reverse.map f) (layers.map fun layer => layer.reverse.map f).reverse where
  flatten_eq := by
    rw [← h.flatten_eq, List.reverse_flatten, List.map_flatten, List.map_reverse, List.map_map]
    rfl
  apart := by
    intro layer hlayer
    obtain ⟨l, hl, rfl⟩ := List.mem_map.mp (List.mem_reverse.mp hlayer)
    rw [List.pairwise_map, List.pairwise_reverse]
    exact (h.apart l hl).imp fun hgh => hf _ _ hgh.symm

/-- Turned around, a circuit is at most as deep. -/
theorem depth_transpose_le (c : Circuit) : c.transpose.depth ≤ c.depth := by
  obtain ⟨layers, hlayering, hlength⟩ := c.isLeast_depth.1
  have hle := IsLayering.depth_le (c := c.transpose)
    (hlayering.reverse_map fun _ _ hgh => hgh.flipped)
  rwa [List.length_reverse, List.length_map, hlength] at hle

/-- Transposing twice gives back the gates. -/
theorem gates_transpose_transpose (c : Circuit) : c.transpose.transpose.gates = c.gates := by
  have hid : Gate.flipped ∘ Gate.flipped = id := rfl
  simp [transpose, List.map_reverse, hid]

/-- A transposed circuit has as many gates. -/
@[simp] theorem count_transpose (c : Circuit) : c.transpose.count = c.count := by
  simp [count, transpose]

/-- **Turning a circuit around keeps its depth.** -/
@[simp] theorem depth_transpose (c : Circuit) : c.transpose.depth = c.depth := by
  refine Nat.le_antisymm c.depth_transpose_le ?_
  have hback : c.transpose.transpose.depth = c.depth := by
    rw [depth, gates_transpose_transpose, ← depth]
  rw [← hback]
  exact c.transpose.depth_transpose_le

end Circuit

/-- **Turning a circuit around keeps its cost**, under every metric. -/
@[simp] theorem Metric.score_transpose (metric : Metric) (c : Circuit) :
    metric.score c.transpose = metric.score c := by
  cases metric <;> simp [score]

end CnotSynthesis
