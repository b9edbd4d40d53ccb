import CnotSynthesis.Proofs.Graph.Connectivity
import CnotSynthesis.Proofs.Graph.Layers

/-! # Shortest paths

* **`Exploration.exists_run_eq`** — a walk that stops is the beginning of the walk that does not;
  **`Exploration.Walk.branch_run`** — a walk that goes on keeps the branches it has. Together:
  **`explore_branch_eq`** — a walk that stops has the branches of the whole walk.
* **`CouplingGraph.IsShortest`** — a path through usable qubits that no walk through them undercuts;
  **`CouplingGraph.shortestPathThrough_cases`** — the path that is found is one, and there is one if
  the ends are joined.
* **`CouplingGraph.shortestPath_eq_through`** — with all qubits usable, the walk that stops at its
  end gives the path that the whole walk gives.
* **`Exploration.Counted`** — the invariant of the steps that are counted on the way;
  **`CouplingGraph.distance_eq_length`** — they count the couplings of the path.
* **`CouplingGraph.distance_eq_dist`** — distances are those of the graph. -/

namespace CnotSynthesis

variable {next : ℕ → List ℕ} {stop : ℕ → Bool} {sources : List ℕ}

/-! ## Walks that stop and walks that go on -/

/-- Vertices found later do not matter to a climb. -/
theorem Lineage.climb_append {seen : List ℕ} {parent : List (ℕ × ℕ)}
    (h : Lineage next sources seen parent) {v : ℕ} (hv : v ∈ seen) {found : List ℕ}
    (hnext : ∀ u ∈ found, u ∈ next v) (hnew : ∀ u ∈ found, u ∉ seen) (hnodup : found.Nodup)
    {u : ℕ} (hu : u ∈ seen) (fuel : ℕ) (below : List (ℕ × ℕ)) :
    Exploration.climb (found.map (·, v) ++ parent) fuel u below =
      Exploration.climb parent fuel u below := by
  induction found with
  | nil => rfl
  | cons w found ih =>
    obtain ⟨hw, hnodup⟩ := List.nodup_cons.mp hnodup
    have hnext' : ∀ u ∈ found, u ∈ next v := fun u hu => hnext u (List.mem_cons_of_mem _ hu)
    have hnew' : ∀ u ∈ found, u ∉ seen := fun u hu => hnew u (List.mem_cons_of_mem _ hu)
    have hfound : w ∉ found ++ seen := by
      rw [List.mem_append, not_or]
      exact ⟨hw, hnew w List.mem_cons_self⟩
    have hlineage := h.found_all hv hnext' hnew' hnodup
    exact (hlineage.climb_cons hfound fuel below (List.mem_append_right _ hu)).trans
      (ih hnext' hnew' hnodup)

namespace Exploration

variable {e : Exploration} {visited : List ℕ}

/-- Where a walk would stop does not matter to what has been visited. -/
theorem Walk.unstopped (h : Walk next stop sources e visited) :
    Walk next (fun _ => false) sources e visited :=
  { h with quiet := fun _ _ => rfl }

/-- **A visit keeps the branches** to the vertices found before. -/
theorem Walk.branch_visit {v : ℕ} {rest : List ℕ} (h : Walk next stop sources e visited)
    (hqueue : e.queue = v :: rest) (hnodup : (next v).Nodup) {u : ℕ} (hu : u ∈ e.seen) :
    (Exploration.visit next { e with queue := rest } v).branch u = e.branch u := by
  have hv : v ∈ e.seen := by
    rw [h.perm.mem_iff, hqueue]
    exact List.mem_append_right _ List.mem_cons_self
  obtain ⟨edges, _, _, hclimb⟩ := h.lineage.branch_climb hu
  have hold : e.branch u = edges := (hclimb _ [] le_rfl).trans (List.append_nil _)
  -- the climb passes over what the visit found, and the longer list only allows more steps
  rw [hold]
  unfold branch Exploration.visit
  dsimp only
  rw [h.lineage.climb_append hv (fun u hu => (List.mem_filter.mp hu).1)
    (fun u hu => by simpa using (List.mem_filter.mp hu).2) (hnodup.filter _) hu,
    hclimb _ [] (by simp), List.append_nil]

/-- **A walk that goes on keeps the branches** to the vertices found before. -/
theorem Walk.branch_run (hnodup : ∀ v, (next v).Nodup) (fuel : ℕ) :
    ∀ {e : Exploration} {visited : List ℕ}, Walk next (fun _ => false) sources e visited →
      ∀ {u : ℕ}, u ∈ e.seen →
        (Exploration.run next (fun _ => false) fuel e).1.branch u = e.branch u := by
  induction fuel with
  | zero => exact fun _ _ _ => rfl
  | succ fuel ih =>
    intro e visited h u hu
    unfold Exploration.run
    cases hqueue : e.queue with
    | nil => rfl
    | cons v rest =>
      have hvisit := h.visit hqueue rfl (hnodup v)
      have hseen : u ∈ (Exploration.visit next { e with queue := rest } v).seen :=
        List.mem_append_right _ hu
      exact (ih hvisit hseen).trans (h.branch_visit hqueue (hnodup v) hu)

/-- **A walk that stops is the beginning** of the walk that does not. -/
theorem exists_run_eq (next : ℕ → List ℕ) (stop : ℕ → Bool) (fuel : ℕ) : ∀ e : Exploration,
    ∃ fuel', run next (fun _ => false) fuel e =
      run next (fun _ => false) fuel' (run next stop fuel e).1 := by
  induction fuel with
  | zero => exact fun e => ⟨0, rfl⟩
  | succ fuel ih =>
    intro e
    cases hqueue : e.queue with
    | nil =>
      refine ⟨fuel + 1, ?_⟩
      simp only [run, hqueue]
    | cons v rest =>
      by_cases hv : stop v = true
      · refine ⟨fuel + 1, ?_⟩
        simp only [run, hqueue, hv, if_true]
      · obtain ⟨fuel', heq⟩ := ih (visit next { e with queue := rest } v)
        refine ⟨fuel', ?_⟩
        simpa only [run, hqueue, hv, Bool.false_eq_true, if_false] using heq

end Exploration

/-- **A walk that stops has the branches of the whole walk.** -/
theorem explore_branch_eq {size : ℕ} (hnodup : ∀ v, (next v).Nodup) (hsources : sources.Nodup)
    (hlt : ∀ v, Reaches next sources v → v < size) {v : ℕ}
    (hv : v ∈ (explore next stop size sources).1.seen) :
    (explore next (fun _ => false) size sources).1.branch v =
      (explore next stop size sources).1.branch v := by
  obtain ⟨visited, hwalk, _⟩ := explore_walk hnodup hsources hlt stop
  obtain ⟨fuel, heq⟩ := Exploration.exists_run_eq next stop size (Exploration.start sources)
  unfold explore at hv hwalk ⊢
  rw [heq]
  exact hwalk.unstopped.branch_run hnodup fuel hv

/-! ## Counted steps -/

namespace Exploration

variable {e : Exploration} {visited rest : List ℕ} {u v : ℕ}

/-- **Steps are counted** along the parents: none to a source, one more than to its parent to any
other vertex that was found, and there is no count for what was not found. -/
structure Counted (sources : List ℕ) (e : Exploration) : Prop where
  seen : ∀ v, (e.stepsTo v).isSome = true ↔ v ∈ e.seen
  source : ∀ s ∈ sources, e.stepsTo s = some 0
  parent : ∀ p ∈ e.parent, ∃ k, e.stepsTo p.2 = some k ∧ e.stepsTo p.1 = some (k + 1)

/-- The count of what stands in a list with the same count for all. -/
theorem lookup_map_const (l : List ℕ) (u k : ℕ) :
    (l.map (·, k)).lookup u = if u ∈ l then some k else none := by
  induction l with
  | nil => rfl
  | cons a l ih =>
    rw [List.map_cons, List.lookup_cons, ih]
    by_cases hua : u = a
    · simp [hua]
    · simp [hua, beq_false_of_ne hua]

/-- Before the first visit nothing but the sources is counted. -/
theorem counted_start : Counted sources (start sources) where
  seen := by
    intro v
    unfold start stepsTo
    rw [lookup_map_const]
    split <;> simpa
  source := by
    intro s hs
    unfold start stepsTo
    rw [lookup_map_const, if_pos hs]
  parent := by simp [start]

/-- A visit counts one step more for what it finds. -/
theorem stepsTo_visit (next : ℕ → List ℕ) (e : Exploration) (v u : ℕ) :
    (visit next e v).stepsTo u =
      if u ∈ next v ∧ u ∉ e.seen then some ((e.stepsTo v).getD 0 + 1) else e.stepsTo u := by
  have hfound : u ∈ (next v).filter (fun u => !e.seen.contains u) ↔ u ∈ next v ∧ u ∉ e.seen := by
    simp
  have hsteps : (visit next e v).stepsTo u =
      (((next v).filter fun u => !e.seen.contains u).map
        (·, (e.stepsTo v).getD 0 + 1) ++ e.steps).lookup u := rfl
  rw [hsteps, List.lookup_append, lookup_map_const]
  simp only [hfound]
  split <;> rfl

/-- **A visit keeps the count.** -/
theorem Counted.visit (hwalk : Walk next stop sources e visited) (h : Counted sources e)
    (hqueue : e.queue = v :: rest) :
    Counted sources (Exploration.visit next { e with queue := rest } v) := by
  have hsteps : ∀ u, (Exploration.visit next { e with queue := rest } v).stepsTo u =
      if u ∈ next v ∧ u ∉ e.seen then some ((e.stepsTo v).getD 0 + 1) else e.stepsTo u :=
    stepsTo_visit next { e with queue := rest } v
  have hold : ∀ u ∈ e.seen,
      (Exploration.visit next { e with queue := rest } v).stepsTo u = e.stepsTo u := by
    intro u hu
    rw [hsteps, if_neg fun hnew => hnew.2 hu]
  have hv : v ∈ e.seen := by
    rw [hwalk.perm.mem_iff, hqueue]
    exact List.mem_append_right _ List.mem_cons_self
  obtain ⟨found, _, hvisit, hnew⟩ := visit_eq next { e with queue := rest } v
  refine ⟨?_, ?_, ?_⟩
  · intro u
    have hseen : u ∈ (Exploration.visit next { e with queue := rest } v).seen ↔
        u ∈ found ∨ u ∈ e.seen := by rw [hvisit, List.mem_append]
    rw [hsteps, hseen, hnew]
    split
    · next hfound => exact iff_of_true rfl (.inl hfound)
    · next hfound => exact (h.seen u).trans (or_iff_right hfound).symm
  · intro s hs
    rw [hold s (hwalk.lineage.mem_of_mem hs), h.source s hs]
  · intro p hp
    rw [hvisit] at hp
    rcases List.mem_append.mp hp with hp | hp
    · obtain ⟨u, hu, rfl⟩ := List.mem_map.mp hp
      obtain ⟨k, hk⟩ := Option.isSome_iff_exists.mp ((h.seen v).mpr hv)
      refine ⟨k, (hold v hv).trans hk, ?_⟩
      rw [hsteps, if_pos ((hnew u).mp hu), hk, Option.getD_some]
    · obtain ⟨hchild, hparent⟩ := hwalk.lineage.mem_of_parent hp
      rw [hold _ hchild, hold _ hparent]
      exact h.parent p hp

/-- **A walk keeps the count.** -/
theorem Counted.run (hnodup : ∀ v, (next v).Nodup) (fuel : ℕ) :
    ∀ {e : Exploration} {visited : List ℕ}, Walk next (fun _ => false) sources e visited →
      Counted sources e → Counted sources (Exploration.run next (fun _ => false) fuel e).1 := by
  induction fuel with
  | zero => exact fun _ h => h
  | succ fuel ih =>
    intro e visited hwalk h
    unfold Exploration.run
    cases hqueue : e.queue with
    | nil => exact h
    | cons v rest => exact ih (hwalk.visit hqueue rfl (hnodup v)) (h.visit hwalk hqueue)

/-- **The count is the length of the branch.** -/
theorem Counted.stepsTo_eq (h : Counted sources e)
    (hbranch : Branch next sources v (e.branch v)) (hv : v ∈ e.seen) :
    e.stepsTo v = some (e.branch v).length := by
  obtain ⟨k, hk⟩ := Option.isSome_iff_exists.mp ((h.seen v).mpr hv)
  have hlength : (e.branch v).length = (e.stepsTo v).getD 0 := by
    refine @Branch.length_eq next sources v _ (fun u => (e.stepsTo u).getD 0) hbranch ?_ ?_
    · intro s hs
      simp only [h.source s hs, Option.getD_some]
    · intro p hp
      obtain ⟨_, hparent, hchild⟩ := h.parent _ ((mem_climb _ hp).resolve_left List.not_mem_nil)
      simp only [hchild, hparent, Option.getD_some]
  rw [hlength, hk, Option.getD_some]

end Exploration

/-- What is reached in some number of steps is reached. -/
theorem ReachedIn.reaches {k v : ℕ} (h : ReachedIn next sources k v) : Reaches next sources v := by
  induction h with
  | @source s hs => exact ⟨s, hs, .refl⟩
  | step _ hu ih =>
    obtain ⟨s, hs, hpath⟩ := ih
    exact ⟨s, hs, hpath.tail hu⟩

namespace CouplingGraph

variable {G : CouplingGraph} {usable : List ℕ} {a b : ℕ}

/-! ## Paths inside a set of qubits -/

/-- **A shortest path inside `S`**: the qubits of a path from `a` to `b` that meets none twice and
none outside `S`, and no walk from `a` to `b` inside `S` has fewer couplings. -/
def IsShortest (G : CouplingGraph) (S : Set ℕ) (a b : ℕ) (path : List ℕ) : Prop :=
  ∃ p : G.toSimpleGraph.Walk a b, p.support = path ∧ p.IsPath ∧ (∀ q ∈ p.support, q ∈ S) ∧
    ∀ p' : G.toSimpleGraph.Walk a b, (∀ q ∈ p'.support, q ∈ S) → p.length ≤ p'.length

/-- A walk inside `S` leads from coupling to coupling. -/
theorem reflTransGen_of_inside {S : Set ℕ} (p : G.toSimpleGraph.Walk a b)
    (h : ∀ q ∈ p.support, q ∈ S) : Relation.ReflTransGen (G.LeadsInto S) a b := by
  induction p with
  | nil => exact .refl
  | cons hadj p ih =>
    rw [SimpleGraph.Walk.support_cons, List.forall_mem_cons] at h
    exact .head ⟨h.2 _ p.start_mem_support, hadj⟩ (ih h.2)

/-- A branch from `a` among usable qubits is a path inside them. -/
theorem exists_isPath_of_branch {v : ℕ} {edges : List (ℕ × ℕ)}
    (h : Branch (G.neighborsWithin usable) [a] v edges) (ha : a ∈ usable) :
    ∃ p : G.toSimpleGraph.Walk a v,
      p.support = pathAlong a edges ∧ p.IsPath ∧ ∀ q ∈ p.support, q ∈ usable := by
  induction h with
  | source hs =>
    obtain rfl := List.mem_singleton.mp hs
    exact ⟨.nil, rfl, .nil, by simpa using ha⟩
  | @step v u edges _ hu hnew hfresh ih =>
    obtain ⟨p, hsupport, hpath, hinside⟩ := ih
    obtain ⟨husable, hedge⟩ := mem_neighborsWithin.mp hu
    have hadj : G.toSimpleGraph.Adj v u := hedge
    have hnotMem : u ∉ p.support := by
      rw [hsupport, pathAlong, List.mem_cons, not_or]
      refine ⟨fun hua => hnew (List.mem_singleton.mpr hua), fun hmem => ?_⟩
      obtain ⟨e, he, heq⟩ := List.mem_map.mp hmem
      exact hfresh e he heq.symm
    refine ⟨p.concat hadj, ?_, hpath.concat hnotMem hadj, ?_⟩
    · rw [SimpleGraph.Walk.support_concat, hsupport]
      simp [pathAlong]
    · intro q hq
      rw [SimpleGraph.Walk.support_concat, List.mem_append] at hq
      rcases hq with hq | hq
      · exact hinside q hq
      · rwa [List.mem_singleton.mp hq]

/-- A walk inside the usable qubits reaches its end in as many steps as it has couplings. -/
theorem reachedIn_of_inside (p : G.toSimpleGraph.Walk a b) (h : ∀ q ∈ p.support, q ∈ usable) :
    ReachedIn (G.neighborsWithin usable) [a] p.length b := by
  induction p using SimpleGraph.Walk.concatRec with
  | Hnil => exact .source (List.mem_singleton_self _)
  | @Hconcat a v u p hadj ih =>
    rw [SimpleGraph.Walk.support_concat] at h
    rw [SimpleGraph.Walk.length_concat]
    refine .step (ih fun q hq => h q (List.mem_append_left _ hq)) ?_
    exact mem_neighborsWithin.mpr ⟨h u (by simp), hadj⟩

/-- Whether a qubit may be used. -/
theorem allows_iff {q : ℕ} (hq : q < G.size) : G.allows usable q = true ↔ q ∈ usable := by
  simp [allows, hq]

/-- **Paths through usable qubits**: a shortest one is found, or there is none. -/
theorem shortestPathThrough_cases (usable : List ℕ) (ha : a < G.size) (hb : b < G.size) :
    (∃ path, G.shortestPathThrough a b usable = some path ∧
      G.IsShortest {q | q ∈ usable} a b path) ∨
    (G.shortestPathThrough a b usable = none ∧
      ∀ p : G.toSimpleGraph.Walk a b, ¬ ∀ q ∈ p.support, q ∈ usable) := by
  have hallows : (G.allows usable a && G.allows usable b) = true ↔ a ∈ usable ∧ b ∈ usable := by
    rw [Bool.and_eq_true, allows_iff ha, allows_iff hb]
  unfold shortestPathThrough
  split
  · next hallowed =>
    rw [hallows] at hallowed
    have hnodup := nodup_neighborsWithin (G := G) usable
    have hlt : ∀ v, Reaches (G.neighborsWithin usable) [a] v → v < G.size := fun v =>
      reaches_lt (by simpa using ha)
    cases hexplore : explore (G.neighborsWithin usable) (· == b) G.size [a] with
    | mk e found =>
      have hfound := congrArg Prod.snd hexplore
      cases found with
      | none =>
        refine .inr ⟨rfl, fun p hp => ?_⟩
        have hquiet := explore_none hnodup (List.nodup_singleton a) hlt hfound
          (reachedIn_of_inside p hp).reaches
        simp at hquiet
      | some v =>
        obtain ⟨hstop, hbranch⟩ := explore_some hnodup (List.nodup_singleton a) hlt hfound
        obtain rfl : v = b := beq_iff_eq.mp hstop
        rw [hexplore] at hbranch
        obtain ⟨p, hsupport, hpath, hinside⟩ := exists_isPath_of_branch hbranch hallowed.1
        refine .inl ⟨_, rfl, p, hsupport, hpath, hinside, fun p' hp' => ?_⟩
        have hnear := explore_nearest hnodup (List.nodup_singleton a) hlt hfound
          (reachedIn_of_inside p' hp') (beq_self_eq_true v)
        rw [hexplore] at hnear
        have hlength := congrArg List.length hsupport
        rw [SimpleGraph.Walk.length_support, pathAlong, List.length_cons,
          List.length_map] at hlength
        omega
  · next hallowed =>
    refine .inr ⟨rfl, fun p hp => hallowed (hallows.mpr ?_)⟩
    exact ⟨hp a p.start_mem_support, hp b p.end_mem_support⟩

/-! ## The whole graph -/

/-- **The walk that stops and the whole walk give the same path**, if all qubits are usable. -/
theorem shortestPath_eq_through {all : List ℕ} (hall : ∀ q, q < G.size → q ∈ all) (ha : a < G.size)
    (hb : b < G.size) : G.shortestPath a b = G.shortestPathThrough a b all := by
  have hnodup := nodup_neighbors (G := G)
  have hlt := neighbors_reaches_lt ha
  have hseen : ∀ v, v ∈ (explore G.neighbors (fun _ => false) G.size [a]).1.seen ↔
      Reaches G.neighbors [a] v := fun v => mem_seen_iff hnodup (List.nodup_singleton a) hlt
  unfold shortestPath surroundings shortestPathThrough
  rw [neighborsWithin_eq_neighbors hall, (allows_iff ha).mpr (hall a ha),
    (allows_iff hb).mpr (hall b hb)]
  cases hexplore : explore G.neighbors (· == b) G.size [a] with
  | mk e found =>
    have hfound := congrArg Prod.snd hexplore
    cases found with
    | none =>
      refine if_neg fun hmem => ?_
      have hquiet := explore_none hnodup (List.nodup_singleton a) hlt hfound
        ((hseen b).mp (List.contains_iff_mem.mp hmem))
      simp at hquiet
    | some v =>
      obtain ⟨visited, hwalk, hend⟩ := explore_walk hnodup (List.nodup_singleton a) hlt (· == b)
      rw [hexplore] at hwalk hend
      obtain ⟨hv, hstop⟩ := hend
      obtain rfl : v = b := beq_iff_eq.mp hstop
      have hfoundSeen : v ∈ (explore G.neighbors (· == v) G.size [a]).1.seen := by
        rw [hexplore]
        exact hv
      have hbranch := explore_branch_eq hnodup (List.nodup_singleton a) hlt hfoundSeen
      rw [hexplore] at hbranch
      dsimp only
      rw [if_pos (List.contains_iff_mem.mpr ((hseen v).mpr (hwalk.lineage.reaches hv))), hbranch]
      rfl

/-- A walk does not leave the qubits of the graph. -/
theorem lt_of_mem_support (p : G.toSimpleGraph.Walk a b) (ha : a < G.size) :
    ∀ q ∈ p.support, q < G.size := by
  induction p with
  | nil => simpa using ha
  | cons hadj p ih =>
    rw [SimpleGraph.Walk.support_cons, List.forall_mem_cons]
    exact ⟨ha, ih (lt_of_hasEdge hadj).2⟩

/-- Any two qubits of a connected graph are joined. -/
theorem reachable_of_isConnected (h : G.isConnected = true) (ha : a < G.size) (hb : b < G.size) :
    G.toSimpleGraph.Reachable a b := by
  have hpath := connectedOn_iff.mp (isConnected_iff.mp h) a ha b hb
  exact (SimpleGraph.reachable_iff_reflTransGen a b).mpr
    (Relation.ReflTransGen.mono (fun _ _ hstep => hstep.2) _ _ hpath)

/-- **The path that is found in a connected graph** is as long as the distance. -/
theorem exists_shortestPath_eq (h : G.isConnected = true) (ha : a < G.size) (hb : b < G.size) :
    ∃ p : G.toSimpleGraph.Walk a b, p.IsPath ∧ p.length = G.toSimpleGraph.dist a b ∧
      G.shortestPath a b = some p.support := by
  have hall : ∀ q, q < G.size → q ∈ List.range G.size := fun q hq => List.mem_range.mpr hq
  have hinside : ∀ p : G.toSimpleGraph.Walk a b, ∀ q ∈ p.support, q ∈ List.range G.size :=
    fun p q hq => hall q (lt_of_mem_support p ha q hq)
  obtain ⟨p₀, hp₀⟩ := (reachable_of_isConnected h ha hb).exists_walk_length_eq_dist
  rw [shortestPath_eq_through hall ha hb]
  rcases shortestPathThrough_cases (List.range G.size) ha hb with
    ⟨path, hpath, p, rfl, hisPath, _, hleast⟩ | ⟨_, hnone⟩
  · refine ⟨p, hisPath, le_antisymm ?_ (SimpleGraph.dist_le p), hpath⟩
    rw [← hp₀]
    exact hleast p₀ (hinside p₀)
  · exact absurd (hinside p₀) (hnone p₀)

/-- **The distance is the number of couplings on the path.** -/
theorem distance_eq_length (ha : a < G.size) :
    G.distance a b = (G.shortestPath a b).map fun path => path.length - 1 := by
  have hnodup := nodup_neighbors (G := G)
  have hcounted : Exploration.Counted [a] (G.surroundings a) :=
    .run hnodup G.size Exploration.walk_start Exploration.counted_start
  unfold distance shortestPath
  dsimp only
  by_cases hb : b ∈ (G.surroundings a).seen
  · have hbranch := explore_branch hnodup (List.nodup_singleton a) (neighbors_reaches_lt ha) hb
    rw [hcounted.stepsTo_eq hbranch hb, if_pos (List.contains_iff_mem.mpr hb), Option.map_some,
      pathAlong, List.length_cons, List.length_map, Nat.add_sub_cancel]
  · rw [if_neg (List.contains_iff_mem.not.mpr hb), Option.map_none]
    exact Option.not_isSome_iff_eq_none.mp fun hsome => hb ((hcounted.seen b).mp hsome)

/-- **Distances** are those of the graph. -/
theorem distance_eq_dist (h : G.isConnected = true) (ha : a < G.size) (hb : b < G.size) :
    G.distance a b = some (G.toSimpleGraph.dist a b) := by
  obtain ⟨p, _, hlength, hpath⟩ := exists_shortestPath_eq h ha hb
  rw [distance_eq_length ha, hpath, Option.map_some, SimpleGraph.Walk.length_support,
    Nat.add_sub_cancel, hlength]

/-! ## Questions about any two qubits -/

/-- Between qubits of the graph, a shortest path is looked for without a breach. -/
theorem shortestPath?_eq (ha : a < G.size) (hb : b < G.size) :
    G.shortestPath? a b = .ok (G.shortestPath a b) := if_pos ⟨ha, hb⟩

/-- So it is through usable qubits. -/
theorem shortestPathThrough?_eq (usable : List ℕ) (ha : a < G.size) (hb : b < G.size) :
    G.shortestPathThrough? a b usable = .ok (G.shortestPathThrough a b usable) := by
  unfold shortestPathThrough?
  rw [if_neg (by omega), if_neg (by omega)]

/-- **Shortest paths.** For any two qubits of a connected graph and any usable ones: the distance is
that of the graph; the path between them is a path of couplings of that length which meets no qubit
twice. Among usable qubits there is no path exactly if an end is not usable or no walk inside joins
them; otherwise the path is a shortest one inside. With all qubits usable, however they are listed,
both computations give the same qubits in the same order. -/
theorem shortestPath_specification (hG : G.isConnected = true) {u v : ℕ} (hu : u < G.size)
    (hv : v < G.size) (usable : List ℕ) :
    G.distance? u v = .ok (some (G.toSimpleGraph.dist u v)) ∧
    (∃ p : G.toSimpleGraph.Walk u v, G.shortestPath? u v = .ok (some p.support) ∧ p.IsPath ∧
      p.length = G.toSimpleGraph.dist u v) ∧
    (G.shortestPathThrough? u v usable = .ok none ↔ u ∉ usable ∨ v ∉ usable ∨
      ¬ ∃ p : G.toSimpleGraph.Walk u v, ∀ q ∈ p.support, q ∈ usable) ∧
    (G.shortestPathThrough? u v usable ≠ .ok none → ∃ path,
      G.shortestPathThrough? u v usable = .ok (some path) ∧
        G.IsShortest {q | q ∈ usable} u v path) ∧
    ∀ all : List ℕ, (∀ q, q < G.size → q ∈ all) →
      G.shortestPath? u v = G.shortestPathThrough? u v all := by
  rw [shortestPath?_eq hu hv, shortestPathThrough?_eq usable hu hv]
  refine ⟨?_, ?_, ?_, ?_, ?_⟩
  · rw [distance?, if_pos ⟨hu, hv⟩, distance_eq_dist hG hu hv]
  · obtain ⟨p, hpath, hlength, heq⟩ := exists_shortestPath_eq hG hu hv
    exact ⟨p, by rw [heq], hpath, hlength⟩
  · rcases shortestPathThrough_cases usable hu hv with ⟨path, hsome, hshortest⟩ | ⟨hnone, hno⟩
    · obtain ⟨p, _, _, hinside, _⟩ := hshortest
      refine ⟨fun h => ?_, ?_⟩
      · rw [hsome] at h
        cases h
      · rintro (hout | hout | hout)
        · exact absurd (hinside u p.start_mem_support) hout
        · exact absurd (hinside v p.end_mem_support) hout
        · exact absurd ⟨p, hinside⟩ hout
    · exact ⟨fun _ => .inr (.inr fun ⟨p, hp⟩ => hno p hp), fun _ => by rw [hnone]⟩
  · intro hne
    rcases shortestPathThrough_cases usable hu hv with ⟨path, hsome, hshortest⟩ | ⟨hnone, _⟩
    · exact ⟨path, by rw [hsome], hshortest⟩
    · exact absurd (congrArg Except.ok hnone) hne
  · intro all hall
    rw [shortestPathThrough?_eq all hu hv, shortestPath_eq_through hall hu hv]

/-- On a ring of six: the short way round, the long way when the qubit on the short one may not be
used, and no way without the qubits on the long one either. -/
theorem shortestPath_specification_ring :
    (ring 6).isConnected = true ∧ (ring 6).toSimpleGraph.dist 0 4 = 2 ∧
      (ring 6).shortestPathThrough? 0 4 [3, 5, 1, 4, 2, 0] = .ok (some [0, 5, 4]) ∧
      (ring 6).shortestPathThrough? 0 4 [0, 1, 2, 3, 4] = .ok (some [0, 1, 2, 3, 4]) ∧
      ¬ ∃ p : (ring 6).toSimpleGraph.Walk 0 4, ∀ q ∈ p.support, q ∈ [0, 1, 4] := by
  have hG : (ring 6).isConnected = true := by decide
  have hpath : (ring 6).shortestPath? 0 4 = .ok (some [0, 5, 4]) := by decide
  have hdistance : (ring 6).distance? 0 4 = .ok (some 2) := by decide
  obtain ⟨hdist, _, hnone, _, hall⟩ := shortestPath_specification hG (u := 0) (v := 4) (by decide)
    (by decide) [0, 1, 4]
  refine ⟨hG, ?_, ?_, by decide, ?_⟩
  · rw [hdistance] at hdist
    exact (Option.some.inj (Except.ok.inj hdist)).symm
  · rw [← hall [3, 5, 1, 4, 2, 0] (by decide), hpath]
  · have hthrough : (ring 6).shortestPathThrough? 0 4 [0, 1, 4] = .ok none := by decide
    rcases hnone.mp hthrough with hout | hout | hno
    · exact absurd (by decide) hout
    · exact absurd (by decide) hout
    · exact hno

end CouplingGraph

end CnotSynthesis
