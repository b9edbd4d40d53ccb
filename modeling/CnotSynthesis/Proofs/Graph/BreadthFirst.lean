import CnotSynthesis.Graph.Exploration
import Mathlib

/-! # Breadth-first walks

* **`Lineage next sources seen parent`** — every vertex of `seen` is a source or was found from an
  earlier one, which `parent` names.
* **`Branch next sources v edges`** — a path from a source to `v` that meets no vertex twice and no
  other source; **`Lineage.branch_climb`** — the edges climbed from a vertex that was found are one.
* **`Exploration.Walk`** — the invariant of a walk; **`Walk.run`** — it holds to the end, which is a
  vertex where the walk stops or an empty queue.
* **`explore_some`**, **`explore_none`** — what the two ends say; **`mem_seen_iff`** — without a
  stop exactly the vertices that can be reached are found. -/

namespace CnotSynthesis

variable {next : ℕ → List ℕ} {stop : ℕ → Bool} {sources : List ℕ}

/-- `v` can be reached from one of the sources. -/
def Reaches (next : ℕ → List ℕ) (sources : List ℕ) (v : ℕ) : Prop :=
  ∃ s ∈ sources, Relation.ReflTransGen (fun a b => b ∈ next a) s v

/-! ## Where vertices come from -/

/-- **Lineage**: vertices join one at a time, each found from one that is there. -/
inductive Lineage (next : ℕ → List ℕ) (sources : List ℕ) : List ℕ → List (ℕ × ℕ) → Prop
  | start : Lineage next sources sources []
  | found {seen parent v u} : Lineage next sources seen parent → v ∈ seen → u ∈ next v → u ∉ seen →
      Lineage next sources (u :: seen) ((u, v) :: parent)

/-- **A branch**: a path from a source to `v` whose edges lead to new vertices. -/
inductive Branch (next : ℕ → List ℕ) (sources : List ℕ) : ℕ → List (ℕ × ℕ) → Prop
  | source {s} : s ∈ sources → Branch next sources s []
  | step {v u edges} : Branch next sources v edges → u ∈ next v → u ∉ sources →
      (∀ e ∈ edges, u ≠ e.2) → Branch next sources u (edges ++ [(v, u)])

namespace Lineage

variable {seen : List ℕ} {parent : List (ℕ × ℕ)}

/-- Nothing is met twice. -/
theorem nodup (h : Lineage next sources seen parent) (hs : sources.Nodup) : seen.Nodup := by
  induction h with
  | start => exact hs
  | found _ _ _ hnew ih => exact List.nodup_cons.mpr ⟨hnew, ih⟩

/-- The sources have been met. -/
theorem mem_of_mem (h : Lineage next sources seen parent) {s : ℕ} (hs : s ∈ sources) :
    s ∈ seen := by
  induction h with
  | start => exact hs
  | found _ _ _ _ ih => exact List.mem_cons_of_mem _ ih

/-- What has been met can be reached. -/
theorem reaches (h : Lineage next sources seen parent) {v : ℕ} (hv : v ∈ seen) :
    Reaches next sources v := by
  induction h generalizing v with
  | start => exact ⟨v, hv, .refl⟩
  | @found seen parent w u _ hw hu _ ih =>
    rcases List.mem_cons.mp hv with rfl | hv
    · obtain ⟨s, hs, hpath⟩ := ih hw
      exact ⟨s, hs, hpath.tail hu⟩
    · exact ih hv

/-- A parent was found before. -/
theorem lookup_mem (h : Lineage next sources seen parent) {v p : ℕ}
    (hp : parent.lookup v = some p) : p ∈ seen := by
  induction h with
  | start => cases hp
  | @found seen parent w u _ hw _ _ ih =>
    rw [List.lookup_cons] at hp
    split at hp
    · cases hp
      exact List.mem_cons_of_mem _ hw
    · exact List.mem_cons_of_mem _ (ih hp)

/-- A vertex found later does not matter to a climb. -/
theorem climb_cons (h : Lineage next sources seen parent) {u w : ℕ} (hu : u ∉ seen) (fuel : ℕ) :
    ∀ {v : ℕ} (below : List (ℕ × ℕ)), v ∈ seen →
      Exploration.climb ((u, w) :: parent) fuel v below =
        Exploration.climb parent fuel v below := by
  induction fuel with
  | zero => exact fun _ _ => rfl
  | succ fuel ih =>
    intro v below hv
    have hne : (v == u) = false := beq_false_of_ne fun huv => hu (huv ▸ hv)
    unfold Exploration.climb
    rw [List.lookup_cons, hne]
    cases hp : parent.lookup v with
    | none => rfl
    | some p => exact ih _ (h.lookup_mem hp)

/-- **Climbing from a vertex that was found** gives a branch to it. -/
theorem branch_climb (h : Lineage next sources seen parent) {v : ℕ} (hv : v ∈ seen) :
    ∃ edges, Branch next sources v edges ∧ (∀ e ∈ edges, e.2 ∈ seen) ∧
      ∀ fuel below, parent.length ≤ fuel →
        Exploration.climb parent fuel v below = edges ++ below := by
  induction h generalizing v with
  | start =>
    refine ⟨[], .source hv, by simp, ?_⟩
    intro fuel below _
    cases fuel <;> rfl
  | @found seen parent w u h hw hu hnew ih =>
    rcases List.mem_cons.mp hv with rfl | hv
    · -- the new vertex hangs on the branch of the one it was found from
      obtain ⟨edges, hbranch, hseen, hclimb⟩ := ih hw
      refine ⟨edges ++ [(w, v)], ?_, ?_, ?_⟩
      · refine .step hbranch hu (fun hs => hnew (h.mem_of_mem hs)) ?_
        rintro e he rfl
        exact hnew (hseen e he)
      · intro e he
        rcases List.mem_append.mp he with he | he
        · exact List.mem_cons_of_mem _ (hseen e he)
        · rw [List.mem_singleton.mp he]
          exact List.mem_cons_self
      · intro fuel below hfuel
        rw [List.length_cons] at hfuel
        obtain ⟨fuel, rfl⟩ := Nat.exists_eq_add_of_le' (Nat.one_le_of_lt hfuel)
        have hlookup : ((v, w) :: parent).lookup v = some w := by simp
        have hunfold : Exploration.climb ((v, w) :: parent) (fuel + 1) v below =
            Exploration.climb ((v, w) :: parent) fuel w ((w, v) :: below) := by
          rw [Exploration.climb, hlookup]
        rw [hunfold, h.climb_cons hnew fuel _ hw, hclimb fuel _ (by omega), List.append_assoc]
        rfl
    · obtain ⟨edges, hbranch, hseen, hclimb⟩ := ih hv
      refine ⟨edges, hbranch, fun e he => List.mem_cons_of_mem _ (hseen e he), ?_⟩
      intro fuel below hfuel
      rw [List.length_cons] at hfuel
      rw [h.climb_cons hnew fuel _ hv, hclimb fuel below (by omega)]

/-- Several new neighbours of one vertex join. -/
theorem found_all (h : Lineage next sources seen parent) {v : ℕ} (hv : v ∈ seen) {found : List ℕ}
    (hnext : ∀ u ∈ found, u ∈ next v) (hnew : ∀ u ∈ found, u ∉ seen) (hnodup : found.Nodup) :
    Lineage next sources (found ++ seen) (found.map (·, v) ++ parent) := by
  induction found with
  | nil => exact h
  | cons u found ih =>
    obtain ⟨hu, hnodup⟩ := List.nodup_cons.mp hnodup
    refine .found (ih (fun x hx => hnext x (List.mem_cons_of_mem _ hx))
      (fun x hx => hnew x (List.mem_cons_of_mem _ hx)) hnodup) ?_ (hnext u List.mem_cons_self) ?_
    · exact List.mem_append_right _ hv
    · intro hmem
      rcases List.mem_append.mp hmem with hmem | hmem
      · exact hu hmem
      · exact hnew u List.mem_cons_self hmem

end Lineage

/-! ## The invariant of a walk -/

namespace Exploration

/-- **The invariant of a walk** that has visited the given vertices: the others it has seen wait in
the queue, and the neighbours of those visited are seen. -/
structure Walk (next : ℕ → List ℕ) (stop : ℕ → Bool) (sources : List ℕ) (e : Exploration)
    (visited : List ℕ) : Prop where
  lineage : Lineage next sources e.seen e.parent
  perm : e.seen.Perm (visited ++ e.queue)
  closed : ∀ v ∈ visited, ∀ u ∈ next v, u ∈ e.seen
  quiet : ∀ v ∈ visited, stop v = false

/-- At first only the sources have been met. -/
theorem walk_start : Walk next stop sources (start sources) [] where
  lineage := .start
  perm := List.Perm.refl _
  closed := by simp
  quiet := by simp

/-- **A visit keeps the invariant.** -/
theorem Walk.visit {e : Exploration} {visited rest : List ℕ} {v : ℕ}
    (h : Walk next stop sources e visited) (hqueue : e.queue = v :: rest) (hv : stop v = false)
    (hnodup : (next v).Nodup) :
    Walk next stop sources (Exploration.visit next { e with queue := rest } v) (v :: visited) := by
  have hseen : v ∈ e.seen := by
    rw [h.perm.mem_iff, hqueue]
    exact List.mem_append_right _ List.mem_cons_self
  refine ⟨?_, ?_, ?_, ?_⟩
  · refine h.lineage.found_all hseen ?_ ?_ (hnodup.filter _)
    · exact fun u hu => (List.mem_filter.mp hu).1
    · intro u hu
      simpa using (List.mem_filter.mp hu).2
  · -- the visited vertex leaves the front of the queue, the found ones join its end
    have hperm := h.perm
    rw [hqueue] at hperm
    change ((next v).filter _ ++ e.seen).Perm ((v :: visited) ++ (rest ++ (next v).filter _))
    generalize (next v).filter (fun u => !e.seen.contains u) = found
    calc (found ++ e.seen).Perm (found ++ (visited ++ v :: rest)) := hperm.append_left found
      _ |>.Perm ((visited ++ v :: rest) ++ found) := List.perm_append_comm
      _ |>.Perm ((v :: (visited ++ rest)) ++ found) := List.perm_middle.append_right found
      _ = (v :: visited) ++ (rest ++ found) := by simp
  · intro w hw u hu
    change u ∈ (next v).filter _ ++ e.seen
    rcases List.mem_cons.mp hw with rfl | hw
    · by_cases hmem : u ∈ e.seen
      · exact List.mem_append_right _ hmem
      · exact List.mem_append_left _ (List.mem_filter.mpr ⟨hu, by simpa using hmem⟩)
    · exact List.mem_append_right _ (h.closed w hw u hu)
  · intro w hw
    rcases List.mem_cons.mp hw with rfl | hw
    · exact hv
    · exact h.quiet w hw

/-- **The end of a walk**: a vertex at which it stops, or an empty queue. The fuel is enough, since
no vertex is visited twice. -/
theorem Walk.run {size : ℕ} (hnodup : ∀ v, (next v).Nodup) (hsources : sources.Nodup)
    (hlt : ∀ v, Reaches next sources v → v < size) (fuel : ℕ) :
    ∀ {e : Exploration} {visited : List ℕ}, Walk next stop sources e visited →
      visited.length + fuel = size → ∃ visited',
      Walk next stop sources (Exploration.run next stop fuel e).1 visited' ∧
      match (Exploration.run next stop fuel e).2 with
      | some v => v ∈ (Exploration.run next stop fuel e).1.seen ∧ stop v = true
      | none => (Exploration.run next stop fuel e).1.queue = [] := by
  induction fuel with
  | zero =>
    intro e visited h hfuel
    refine ⟨visited, h, ?_⟩
    -- all vertices are visited, so none waits
    have hle : e.seen.length ≤ size := by
      have hsub : e.seen ⊆ List.range size := fun v hv =>
        List.mem_range.mpr (hlt v (h.lineage.reaches hv))
      simpa using (List.subperm_of_subset (h.lineage.nodup hsources) hsub).length_le
    have hlen := h.perm.length_eq
    rw [List.length_append] at hlen
    have hempty : e.queue = [] := List.eq_nil_of_length_eq_zero (by omega)
    exact hempty
  | succ fuel ih =>
    intro e visited h hfuel
    unfold Exploration.run
    cases hqueue : e.queue with
    | nil => exact ⟨visited, h, hqueue⟩
    | cons v rest =>
      dsimp only
      split
      · next hv =>
        refine ⟨visited, h, ?_, hv⟩
        rw [h.perm.mem_iff, hqueue]
        exact List.mem_append_right _ List.mem_cons_self
      · next hv =>
        refine ih (h.visit hqueue (Bool.eq_false_iff.mpr hv) (hnodup v)) ?_
        rw [List.length_cons]
        omega

/-- An ended walk has visited what can be reached. -/
theorem Walk.mem_visited {e : Exploration} {visited : List ℕ} (h : Walk next stop sources e visited)
    (hqueue : e.queue = []) {v : ℕ} (hv : Reaches next sources v) : v ∈ visited := by
  have hmem : ∀ {w}, w ∈ e.seen ↔ w ∈ visited := by
    intro w
    rw [h.perm.mem_iff, hqueue, List.append_nil]
  obtain ⟨s, hs, hpath⟩ := hv
  induction hpath with
  | refl => exact hmem.mp (h.lineage.mem_of_mem hs)
  | tail _ hu ih => exact hmem.mp (h.closed _ ih _ hu)

end Exploration

/-! ## Whole walks -/

section Walks

variable {size : ℕ} (hnodup : ∀ v, (next v).Nodup) (hsources : sources.Nodup)
  (hlt : ∀ v, Reaches next sources v → v < size)

include hnodup hsources hlt

/-- A whole walk keeps the invariant and ends as it should. -/
theorem explore_walk (stop : ℕ → Bool) : ∃ visited,
    Exploration.Walk next stop sources (explore next stop size sources).1 visited ∧
    match (explore next stop size sources).2 with
    | some v => v ∈ (explore next stop size sources).1.seen ∧ stop v = true
    | none => (explore next stop size sources).1.queue = [] :=
  Exploration.Walk.run hnodup hsources hlt size Exploration.walk_start (by simp)

/-- **Whatever a walk has seen has a branch.** -/
theorem explore_branch {v : ℕ} (hv : v ∈ (explore next stop size sources).1.seen) :
    Branch next sources v ((explore next stop size sources).1.branch v) := by
  obtain ⟨visited, hwalk, _⟩ := explore_walk hnodup hsources hlt stop
  obtain ⟨edges, hbranch, _, hclimb⟩ := hwalk.lineage.branch_climb hv
  have heq : (explore next stop size sources).1.branch v = edges :=
    (hclimb _ [] le_rfl).trans (List.append_nil _)
  rw [heq]
  exact hbranch

/-- **A walk that stops** stops where it should, at a vertex with a branch. -/
theorem explore_some {v : ℕ} (h : (explore next stop size sources).2 = some v) :
    stop v = true ∧ Branch next sources v ((explore next stop size sources).1.branch v) := by
  obtain ⟨_, _, hend⟩ := explore_walk hnodup hsources hlt stop
  rw [h] at hend
  exact ⟨hend.2, explore_branch hnodup hsources hlt hend.1⟩

/-- **A walk that does not stop** has met everything that can be reached, and nowhere a reason to
stop. -/
theorem explore_none (h : (explore next stop size sources).2 = none) {v : ℕ}
    (hv : Reaches next sources v) :
    v ∈ (explore next stop size sources).1.seen ∧ stop v = false := by
  obtain ⟨visited, hwalk, hend⟩ := explore_walk hnodup hsources hlt stop
  rw [h] at hend
  have hvisited := hwalk.mem_visited hend hv
  refine ⟨?_, hwalk.quiet v hvisited⟩
  rw [hwalk.perm.mem_iff]
  exact List.mem_append_left _ hvisited

/-- Without a stop the walk finds exactly what can be reached. -/
theorem mem_seen_iff {v : ℕ} :
    v ∈ (explore next (fun _ => false) size sources).1.seen ↔ Reaches next sources v := by
  obtain ⟨visited, hwalk, hend⟩ := explore_walk hnodup hsources hlt (fun _ => false)
  refine ⟨fun hv => hwalk.lineage.reaches hv, fun hv => ?_⟩
  cases hstop : (explore next (fun _ => false) size sources).2 with
  | none => exact (explore_none hnodup hsources hlt hstop hv).1
  | some w =>
    rw [hstop] at hend
    cases hend.2

/-- An exploration meets nothing twice. -/
theorem nodup_seen : (explore next stop size sources).1.seen.Nodup := by
  obtain ⟨visited, hwalk, _⟩ := explore_walk hnodup hsources hlt stop
  exact hwalk.lineage.nodup hsources

end Walks

end CnotSynthesis
