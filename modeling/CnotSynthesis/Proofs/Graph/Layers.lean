import CnotSynthesis.Proofs.Graph.BreadthFirst

/-! # Breadth-first walks go layer by layer

A walk leaves no vertex for one that is further from the sources, so it stops as near as it can.

* **`ReachedIn next sources k v`** — `v` is reached from a source in `k` steps.
* **`Exploration.Layered`** — the invariant: vertices wait in order of their depth, and the depths
  in the queue differ by at most one; **`Layered.visit`** — one visit, **`Layered.run`** — a whole
  walk, by **`Walk.run_stops`**, which holds of whatever every visit keeps.
* **`explore_nearest`** — the branch to the vertex at which a walk stops is as short as any way to a
  vertex at which it would. -/

namespace CnotSynthesis

variable {next : ℕ → List ℕ} {stop : ℕ → Bool} {sources : List ℕ}

/-- **Reached in `k` steps** from one of the sources. -/
inductive ReachedIn (next : ℕ → List ℕ) (sources : List ℕ) : ℕ → ℕ → Prop
  | source {s} : s ∈ sources → ReachedIn next sources 0 s
  | step {k v u} : ReachedIn next sources k v → u ∈ next v → ReachedIn next sources (k + 1) u

/-! ## Lengths of branches -/

/-- A branch is one way to reach its vertex. -/
theorem Branch.reachedIn {v : ℕ} {edges : List (ℕ × ℕ)} (h : Branch next sources v edges) :
    ReachedIn next sources edges.length v := by
  induction h with
  | source hs => exact .source hs
  | step _ hu _ _ ih =>
    rw [List.length_append]
    exact .step ih hu

/-- The depth of a vertex is the length of a branch along which it grows by one. -/
theorem Branch.length_eq {v : ℕ} {edges : List (ℕ × ℕ)} {depth : ℕ → ℕ}
    (h : Branch next sources v edges) (hsource : ∀ s ∈ sources, depth s = 0)
    (hedge : ∀ e ∈ edges, depth e.2 = depth e.1 + 1) : edges.length = depth v := by
  induction h with
  | source hs => exact (hsource _ hs).symm
  | @step w u edges _ _ _ _ ih =>
    have hlast : depth u = depth w + 1 := hedge (w, u) (by simp)
    have hrest := ih fun e he => hedge e (List.mem_append_left _ he)
    simp [hlast, hrest]

namespace Exploration

/-- A climb follows the edges by which vertices were found. -/
theorem mem_climb {parent : List (ℕ × ℕ)} {e : ℕ × ℕ} (fuel : ℕ) :
    ∀ {v : ℕ} {below : List (ℕ × ℕ)}, e ∈ climb parent fuel v below →
      e ∈ below ∨ (e.2, e.1) ∈ parent := by
  induction fuel with
  | zero => exact fun he => .inl he
  | succ fuel ih =>
    intro v below he
    unfold climb at he
    cases hp : parent.lookup v with
    | none =>
      rw [hp] at he
      exact .inl he
    | some p =>
      rw [hp] at he
      rcases ih he with hmem | hmem
      · rcases List.mem_cons.mp hmem with rfl | hmem
        · obtain ⟨_, _, hsplit, _⟩ := List.lookup_eq_some_iff.mp hp
          exact .inr (by rw [hsplit]; simp)
        · exact .inl hmem
      · exact .inr hmem

end Exploration

/-- Both ends of an edge by which a vertex was found are found. -/
theorem Lineage.mem_of_parent {seen : List ℕ} {parent : List (ℕ × ℕ)}
    (h : Lineage next sources seen parent) {e : ℕ × ℕ} (he : e ∈ parent) :
    e.1 ∈ seen ∧ e.2 ∈ seen := by
  induction h with
  | start => cases he
  | found _ hv _ _ ih =>
    rcases List.mem_cons.mp he with rfl | he
    · exact ⟨List.mem_cons_self, List.mem_cons_of_mem _ hv⟩
    · exact ⟨List.mem_cons_of_mem _ (ih he).1, List.mem_cons_of_mem _ (ih he).2⟩

/-! ## Layers -/

namespace Exploration

variable {e : Exploration} {visited rest : List ℕ} {depth : ℕ → ℕ} {v : ℕ}

/-- **Layers**: every vertex is one step deeper than the one it was found from, the queue is sorted
by depth and spans at most two layers, and what was visited is not deeper than what waits. -/
structure Layered (next : ℕ → List ℕ) (sources : List ℕ) (e : Exploration) (visited : List ℕ)
    (depth : ℕ → ℕ) : Prop where
  source : ∀ s ∈ sources, depth s = 0
  parent : ∀ p ∈ e.parent, depth p.1 = depth p.2 + 1
  next : ∀ v ∈ visited, ∀ u ∈ next v, depth u ≤ depth v + 1
  queue : e.queue.Pairwise fun a b => depth a ≤ depth b ∧ depth b ≤ depth a + 1
  visited : ∀ v ∈ visited, ∀ u ∈ e.queue, depth v ≤ depth u

/-- At first the sources are the only layer. -/
theorem layered_start : Layered next sources (start sources) [] fun _ => 0 where
  source := by simp
  parent := by simp [start]
  next := by simp
  queue := by simp [List.pairwise_iff_forall_sublist]
  visited := by simp

/-- The depth of what a walk has found is the length of its branch. -/
theorem Layered.length_branch (h : Layered next sources e visited depth)
    (hbranch : Branch next sources v (e.branch v)) : (e.branch v).length = depth v := by
  refine hbranch.length_eq h.source fun p hp => ?_
  rcases mem_climb _ hp with hmem | hmem
  · cases hmem
  · exact h.parent _ hmem

/-- The vertex in front is not deeper than the others that wait. -/
theorem Layered.head_le (h : Layered next sources e visited depth) (hqueue : e.queue = v :: rest)
    {u : ℕ} (hu : u ∈ e.queue) : depth v ≤ depth u ∧ depth u ≤ depth v + 1 := by
  have hsorted := h.queue
  rw [hqueue] at hsorted hu
  rcases List.mem_cons.mp hu with rfl | hu
  · exact ⟨le_rfl, Nat.le_succ _⟩
  · exact (List.pairwise_cons.mp hsorted).1 u hu

/-- What a visit finds are the neighbours that were not seen. -/
theorem visit_eq (next : ℕ → List ℕ) (e : Exploration) (v : ℕ) : ∃ found steps,
    visit next e v = ⟨e.queue ++ found, found ++ e.seen, found.map (·, v) ++ e.parent, steps⟩ ∧
      ∀ u, u ∈ found ↔ u ∈ next v ∧ u ∉ e.seen :=
  ⟨_, _, rfl, fun u => by simp⟩

/-- **A visit keeps the layers**: what it finds lies one step below the vertex visited. -/
theorem Layered.visit (hwalk : Walk next stop sources e visited)
    (h : Layered next sources e visited depth) (hqueue : e.queue = v :: rest) :
    ∃ depth', Layered next sources (Exploration.visit next { e with queue := rest } v)
      (v :: visited) depth' := by
  obtain ⟨found, _, hvisit, hnew⟩ := visit_eq next { e with queue := rest } v
  have hseen : ∀ u, u ∈ e.seen ↔ u ∈ visited ∨ u ∈ e.queue := fun u =>
    hwalk.perm.mem_iff.trans List.mem_append
  have hv : v ∈ e.queue := hqueue ▸ List.mem_cons_self
  have hrest : ∀ u ∈ rest, u ∈ e.queue := fun u hu => hqueue ▸ List.mem_cons_of_mem v hu
  -- the new depth differs from the old one on what is found only
  obtain ⟨depth', hfound, hold⟩ : ∃ depth' : ℕ → ℕ,
      (∀ u ∈ found, depth' u = depth v + 1) ∧ ∀ u ∈ e.seen, depth' u = depth u := by
    refine ⟨fun u => if u ∈ found then depth v + 1 else depth u, fun u hu => if_pos hu, ?_⟩
    exact fun u hu => if_neg fun hmem => ((hnew u).mp hmem).2 hu
  have hqueued : ∀ u ∈ e.queue, depth' u = depth u := fun u hu => hold u ((hseen u).mpr (.inr hu))
  have hpassed : ∀ u ∈ visited, depth' u = depth u := fun u hu => hold u ((hseen u).mpr (.inl hu))
  refine ⟨depth', ?_⟩
  rw [hvisit]
  refine ⟨?_, ?_, ?_, ?_, ?_⟩
  · intro s hs
    rw [hold s (hwalk.lineage.mem_of_mem hs), h.source s hs]
  · intro p hp
    rcases List.mem_append.mp hp with hp | hp
    · obtain ⟨u, hu, rfl⟩ := List.mem_map.mp hp
      rw [hfound u hu, hqueued v hv]
    · obtain ⟨hchild, hparent⟩ := hwalk.lineage.mem_of_parent hp
      rw [hold _ hchild, hold _ hparent, h.parent p hp]
  · intro w hw u hu
    rcases List.mem_cons.mp hw with rfl | hw
    · rw [hqueued w hv]
      by_cases hmem : u ∈ e.seen
      · rw [hold u hmem]
        rcases (hseen u).mp hmem with hmem | hmem
        · exact (h.visited u hmem w hv).trans (Nat.le_succ _)
        · exact (h.head_le hqueue hmem).2
      · rw [hfound u ((hnew u).mpr ⟨hu, hmem⟩)]
    · rw [hpassed w hw, hold u (hwalk.closed w hw u hu)]
      exact h.next w hw u hu
  · refine List.pairwise_append.mpr ⟨?_, ?_, ?_⟩
    · have hsorted := h.queue
      rw [hqueue, List.pairwise_cons] at hsorted
      refine hsorted.2.imp_of_mem fun {a b} ha hb hab => ?_
      rwa [hqueued a (hrest a ha), hqueued b (hrest b hb)]
    · refine List.pairwise_of_forall_mem_list fun a ha b hb => ?_
      rw [hfound a ha, hfound b hb]
      omega
    · intro a ha b hb
      have hle := h.head_le hqueue (hrest a ha)
      rw [hqueued a (hrest a ha), hfound b hb]
      omega
  · intro w hw u hu
    -- the visited vertex is as deep as anything visited before it
    have hlast : depth' w ≤ depth v := by
      rcases List.mem_cons.mp hw with rfl | hw
      · exact (hqueued w hv).le
      · exact (hpassed w hw).le.trans (h.visited w hw v hv)
    rcases List.mem_append.mp hu with hu | hu
    · rw [hqueued u (hrest u hu)]
      exact hlast.trans (h.head_le hqueue (hrest u hu)).1
    · rw [hfound u hu]
      omega

/-- **A walk that stops** has its vertex in front of the queue, and keeps what every visit keeps. -/
theorem Walk.run_stops {I : Exploration → List ℕ → Prop} (hnodup : ∀ v, (next v).Nodup)
    (hvisit : ∀ {e : Exploration} {visited rest : List ℕ} {w : ℕ},
      Walk next stop sources e visited → I e visited → e.queue = w :: rest →
      I (Exploration.visit next { e with queue := rest } w) (w :: visited)) (fuel : ℕ) :
    ∀ {e : Exploration} {visited : List ℕ}, Walk next stop sources e visited → I e visited →
      (Exploration.run next stop fuel e).2 = some v →
      ∃ visited' rest, Walk next stop sources (Exploration.run next stop fuel e).1 visited' ∧
        I (Exploration.run next stop fuel e).1 visited' ∧
        (Exploration.run next stop fuel e).1.queue = v :: rest := by
  induction fuel with
  | zero => exact fun _ _ hv => by cases hv
  | succ fuel ih =>
    intro e visited hwalk h hv
    unfold Exploration.run at hv ⊢
    cases hqueue : e.queue with
    | nil =>
      rw [hqueue] at hv
      cases hv
    | cons w rest =>
      rw [hqueue] at hv
      dsimp only at hv ⊢
      split at hv
      · next hw =>
        cases hv
        rw [if_pos hw]
        exact ⟨visited, rest, hwalk, h, hqueue⟩
      · next hw =>
        rw [if_neg hw]
        exact ih (hwalk.visit hqueue (Bool.eq_false_iff.mpr hw) (hnodup w))
          (hvisit hwalk h hqueue) hv

/-- **A walk that stops** does so in front of a queue in layers. -/
theorem Layered.run (hnodup : ∀ v, (next v).Nodup) (fuel : ℕ) {e : Exploration} {visited : List ℕ}
    {depth : ℕ → ℕ} (hwalk : Walk next stop sources e visited)
    (h : Layered next sources e visited depth)
    (hv : (Exploration.run next stop fuel e).2 = some v) :
    ∃ visited' depth' rest, Walk next stop sources (Exploration.run next stop fuel e).1 visited' ∧
      Layered next sources (Exploration.run next stop fuel e).1 visited' depth' ∧
      (Exploration.run next stop fuel e).1.queue = v :: rest := by
  obtain ⟨visited', rest, hwalk', ⟨depth', h'⟩, hqueue⟩ := Walk.run_stops
    (I := fun e visited => ∃ depth, Layered next sources e visited depth) hnodup
    (fun hwalk ⟨_, h⟩ hqueue => h.visit hwalk hqueue) fuel hwalk ⟨depth, h⟩ hv
  exact ⟨visited', depth', rest, hwalk', h', hqueue⟩

/-- **What is nearer than the front of the queue has been visited.** -/
theorem Layered.mem_visited (hwalk : Walk next stop sources e visited)
    (h : Layered next sources e visited depth) (hqueue : e.queue = v :: rest) {k u : ℕ}
    (hu : ReachedIn next sources k u) (hk : k < depth v) : u ∈ visited ∧ depth u ≤ k := by
  -- a vertex that was seen and is less deep than the front does not wait
  have hpassed : ∀ u ∈ e.seen, depth u < depth v → u ∈ visited := by
    intro u hmem hlt
    rcases List.mem_append.mp (hwalk.perm.mem_iff.mp hmem) with hmem | hmem
    · exact hmem
    · have := (h.head_le hqueue hmem).1
      omega
  induction hu with
  | @source s hs =>
    have hzero := h.source s hs
    exact ⟨hpassed s (hwalk.lineage.mem_of_mem hs) (by omega), hzero.le⟩
  | @step k w u _ hnext ih =>
    obtain ⟨hw, hdepth⟩ := ih (by omega)
    have hle := h.next w hw u hnext
    exact ⟨hpassed u (hwalk.closed w hw u hnext) (by omega), by omega⟩

end Exploration

/-- **A walk stops as near as it can**: no vertex at which it would stop is reached in fewer steps
than its branch has edges. -/
theorem explore_nearest {size v : ℕ} (hnodup : ∀ v, (next v).Nodup) (hsources : sources.Nodup)
    (hlt : ∀ v, Reaches next sources v → v < size)
    (hv : (explore next stop size sources).2 = some v) {k u : ℕ}
    (hu : ReachedIn next sources k u) (hstop : stop u = true) :
    ((explore next stop size sources).1.branch v).length ≤ k := by
  obtain ⟨visited, depth, rest, hwalk, hlayered, hqueue⟩ :=
    Exploration.Layered.run hnodup size Exploration.walk_start Exploration.layered_start hv
  have hbranch := (explore_some hnodup hsources hlt hv).2
  have hlength : ((explore next stop size sources).1.branch v).length = depth v :=
    hlayered.length_branch hbranch
  rw [hlength]
  by_contra hk
  -- the vertex would have been visited before, and the walk would have stopped there
  have hvisited := (hlayered.mem_visited hwalk hqueue hu (by omega)).1
  rw [hwalk.quiet u hvisited] at hstop
  cases hstop

end CnotSynthesis
