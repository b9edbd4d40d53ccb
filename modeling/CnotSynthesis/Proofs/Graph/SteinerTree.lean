import CnotSynthesis.Graph.SteinerTree
import CnotSynthesis.Proofs.Graph.Connectivity

/-! # Steiner trees join their terminals

* **`Grows root edges`** — every edge hangs a new node on the root or on an earlier one; the
  induction of all passes over a tree, which take off the last edge.
* **`SteinerTree.Spans`** — what is asked of a tree: it grows by couplings through allowed qubits,
  and its leaves are terminals, all of which it meets.
* **`CouplingGraph.steinerTreeWith_ok`**, **`CouplingGraph.steinerTreeWith_exists`** — a computed
  tree spans, and on connected qubits there always is one. -/

namespace CnotSynthesis

/-! ## Growing edges -/

/-- **Growing**: every edge hangs a new node on the root or on an earlier one. -/
inductive Grows (root : ℕ) : List (ℕ × ℕ) → Prop
  | nil : Grows root []
  | snoc {edges p c} : Grows root edges → p ∈ root :: edges.map (·.2) →
      c ∉ root :: edges.map (·.2) → Grows root (edges ++ [(p, c)])

namespace Grows

variable {root : ℕ} {edges : List (ℕ × ℕ)}

/-- The parents are nodes. -/
theorem parent_mem (h : Grows root edges) {e : ℕ × ℕ} (he : e ∈ edges) :
    e.1 ∈ root :: edges.map (·.2) := by
  induction h with
  | nil => cases he
  | snoc _ hp _ ih =>
    rw [List.map_append, ← List.cons_append]
    refine List.mem_append_left _ ?_
    rcases List.mem_append.mp he with he | he
    · exact ih he
    · rw [List.mem_singleton.mp he]
      exact hp

/-- No node is attached twice. -/
theorem nodup (h : Grows root edges) : (root :: edges.map (·.2)).Nodup := by
  induction h with
  | nil => exact List.nodup_singleton root
  | @snoc edges p c _ _ hc ih =>
    rw [List.map_append, ← List.cons_append]
    refine List.nodup_append.mpr ⟨ih, List.nodup_singleton _, ?_⟩
    rintro a ha b hb rfl
    have hac : a = c := List.mem_singleton.mp hb
    exact hc (hac ▸ ha)

/-- The root is not attached to anything. -/
theorem child_ne_root (h : Grows root edges) {e : ℕ × ℕ} (he : e ∈ edges) : e.2 ≠ root := by
  intro heq
  exact (List.nodup_cons.mp h.nodup).1 (heq ▸ List.mem_map_of_mem he)

/-- The last child is new, so it is neither end of an earlier edge. -/
theorem not_end {c : ℕ} (h : Grows root edges) (hc : c ∉ root :: edges.map (·.2)) {e : ℕ × ℕ}
    (he : e ∈ edges) : e.1 ≠ c ∧ e.2 ≠ c := by
  constructor
  · rintro rfl
    exact hc (h.parent_mem he)
  · rintro rfl
    exact hc (List.mem_cons_of_mem _ (List.mem_map_of_mem he))

/-- A tree with edges has one at the root. -/
theorem exists_root_edge (h : Grows root edges) (hne : edges ≠ []) : ∃ d, (root, d) ∈ edges := by
  induction h with
  | nil => exact absurd rfl hne
  | @snoc edges p c _ hp _ ih =>
    by_cases hempty : edges = []
    · subst hempty
      have hroot : p = root := by simpa using hp
      exact ⟨c, by rw [hroot]; simp⟩
    · obtain ⟨d, hd⟩ := ih hempty
      exact ⟨d, List.mem_append_left _ hd⟩

/-- Edges whose parents are kept with them keep growing. -/
theorem filter (h : Grows root edges) {marked : List ℕ}
    (hparent : ∀ e ∈ edges, e.2 ∈ marked → e.1 ∈ marked) :
    Grows root (edges.filter fun e => marked.contains e.2) := by
  induction h with
  | nil => exact .nil
  | @snoc edges p c h hp hc ih =>
    have ih := ih fun e he => hparent e (List.mem_append_left _ he)
    rw [List.filter_append]
    by_cases hmem : c ∈ marked
    · have hlast : [(p, c)].filter (fun e => marked.contains e.2) = [(p, c)] := by simp [hmem]
      rw [hlast]
      refine .snoc ih ?_ ?_
      · -- the parent is marked, so the edge to it was kept
        rcases List.mem_cons.mp hp with rfl | hp
        · exact List.mem_cons_self
        · obtain ⟨e, he, rfl⟩ := List.mem_map.mp hp
          have hmarked : e.2 ∈ marked := hparent (e.2, c) (by simp) hmem
          refine List.mem_cons_of_mem _ (List.mem_map_of_mem (List.mem_filter.mpr ⟨he, ?_⟩))
          exact List.contains_iff_mem.mpr hmarked
      · intro hmem'
        refine hc ?_
        rcases List.mem_cons.mp hmem' with rfl | hmem'
        · exact List.mem_cons_self
        · obtain ⟨e, he, rfl⟩ := List.mem_map.mp hmem'
          exact List.mem_cons_of_mem _ (List.mem_map_of_mem (List.mem_filter.mp he).1)
    · have hlast : [(p, c)].filter (fun e => marked.contains e.2) = [] := by simp [hmem]
      rw [hlast, List.append_nil]
      exact ih

end Grows

namespace SteinerTree

variable {G : CouplingGraph} {t : SteinerTree} {allowed terminals : List ℕ}

/-- The test for nodes is right. -/
theorem contains_iff {q : ℕ} : t.contains q = true ↔ q ∈ t.nodes := List.contains_iff_mem

/-- **A tree that grows among the allowed qubits**, by couplings, with terminals for leaves. -/
structure Reaching (G : CouplingGraph) (allowed terminals : List ℕ) (t : SteinerTree) : Prop where
  grows : Grows t.root t.edges
  coupled : ∀ e ∈ t.edges, G.hasEdge e.1 e.2 = true
  allowed : ∀ q ∈ t.nodes, q ∈ allowed
  leaf : ∀ e ∈ t.edges, e.2 ∈ terminals ∨ ∃ d, (e.2, d) ∈ t.edges

/-- **A spanning tree** meets every terminal. -/
structure Spans (G : CouplingGraph) (allowed terminals : List ℕ) (t : SteinerTree) : Prop extends
    Reaching G allowed terminals t where
  terminal : ∀ q ∈ terminals, q ∈ t.nodes

/-- The root alone. -/
theorem reaching_root {root : ℕ} (h : root ∈ allowed) :
    Reaching G allowed terminals ⟨root, []⟩ where
  grows := .nil
  coupled := by simp
  allowed := by simpa [nodes] using h
  leaf := by simp

end SteinerTree

/-! ## Attaching a branch -/

/-- A branch ends at a source or at the last node attached. -/
theorem Branch.mem {next : ℕ → List ℕ} {sources : List ℕ} {v : ℕ} {edges : List (ℕ × ℕ)}
    (h : Branch next sources v edges) : v ∈ sources ∨ v ∈ edges.map (·.2) := by
  cases h with
  | source hs => exact .inl hs
  | step => exact .inr (by simp)

/-- A branch ends in its vertex, and every other child of it has a child. -/
theorem Branch.leaf {next : ℕ → List ℕ} {sources : List ℕ} {v : ℕ} {edges : List (ℕ × ℕ)}
    (h : Branch next sources v edges) {e : ℕ × ℕ} (he : e ∈ edges) :
    e.2 = v ∨ ∃ d, (e.2, d) ∈ edges := by
  induction h with
  | source => cases he
  | @step w u edges _ _ _ _ ih =>
    rcases List.mem_append.mp he with he | he
    · rcases ih he with heq | ⟨d, hd⟩
      · exact .inr ⟨u, List.mem_append_right _ (by rw [heq]; exact List.mem_singleton_self _)⟩
      · exact .inr ⟨d, List.mem_append_left _ hd⟩
    · exact .inl (by rw [List.mem_singleton.mp he])

/-- The edges of a branch are steps. -/
theorem Branch.edge {next : ℕ → List ℕ} {sources : List ℕ} {v : ℕ} {edges : List (ℕ × ℕ)}
    (h : Branch next sources v edges) {e : ℕ × ℕ} (he : e ∈ edges) : e.2 ∈ next e.1 := by
  induction h with
  | source => cases he
  | step _ hu _ _ ih =>
    rcases List.mem_append.mp he with he | he
    · exact ih he
    · rw [List.mem_singleton.mp he]
      exact hu

/-- A branch from the nodes of a growing tree makes it grow. -/
theorem Grows.append_branch {root v : ℕ} {edges branch : List (ℕ × ℕ)} {next : ℕ → List ℕ}
    {sources : List ℕ} (h : Grows root edges)
    (hsources : ∀ q, q ∈ sources → q ∈ root :: edges.map (·.2))
    (hnew : ∀ e ∈ branch, e.2 ∈ root :: edges.map (·.2) → e.2 ∈ sources)
    (hbranch : Branch next sources v branch) : Grows root (edges ++ branch) := by
  induction hbranch with
  | source => simpa using h
  | @step w u branch hbranch _ hu hfresh ih =>
    have ih := ih fun e he => hnew e (List.mem_append_left _ he)
    rw [← List.append_assoc]
    refine .snoc ih ?_ ?_
    · rw [List.map_append, ← List.cons_append]
      rcases hbranch.mem with hmem | hmem
      · exact List.mem_append_left _ (hsources w hmem)
      · exact List.mem_append_right _ hmem
    · rw [List.map_append, ← List.cons_append, List.mem_append]
      rintro (hmem | hmem)
      · exact hu (hnew (w, u) (by simp) hmem)
      · obtain ⟨e, he, heq⟩ := List.mem_map.mp hmem
        exact hfresh e he heq.symm

namespace CouplingGraph

open SteinerTree

variable {G : CouplingGraph} {t : SteinerTree} {allowed terminals : List ℕ}

/-- The nodes of a tree, as sources of a walk. -/
theorem mem_nodeSources (hlt : ∀ q ∈ t.nodes, q < G.size) {q : ℕ} :
    q ∈ (List.range G.size).filter t.contains ↔ q ∈ t.nodes := by
  rw [List.mem_filter, List.mem_range, contains_iff]
  exact ⟨fun h => h.2, fun h => ⟨hlt q h, h⟩⟩

/-- **The nearest branch** leads from the tree to a pending terminal, and without one no pending
terminal can be reached from the root. -/
theorem nearestBranch_spec (pending : List ℕ) (hlt : ∀ q ∈ allowed, q < G.size)
    (ht : ∀ q ∈ t.nodes, q ∈ allowed) :
    match G.nearestBranch allowed t pending with
    | some branch => ∃ v ∈ pending, Branch (G.neighborsWithin allowed)
        ((List.range G.size).filter t.contains) v branch
    | none => ∀ v ∈ pending,
        ¬ Relation.ReflTransGen (G.LeadsInto {q | q ∈ allowed}) t.root v := by
  have hnodes : ∀ q ∈ t.nodes, q < G.size := fun q hq => hlt q (ht q hq)
  have hsources : ((List.range G.size).filter t.contains).Nodup := List.nodup_range.filter _
  have hreach : ∀ v, Reaches (G.neighborsWithin allowed) ((List.range G.size).filter t.contains) v →
      v < G.size := fun v => reaches_lt fun q hq => List.mem_range.mp (List.mem_filter.mp hq).1
  unfold nearestBranch
  cases hexplore : explore (G.neighborsWithin allowed) pending.contains G.size
      ((List.range G.size).filter t.contains) with
  | mk e found =>
    cases found with
    | some v =>
      have hend := explore_some (nodup_neighborsWithin allowed) hsources hreach
        (congrArg Prod.snd hexplore)
      rw [hexplore] at hend
      exact ⟨v, List.contains_iff_mem.mp hend.1, hend.2⟩
    | none =>
      intro v hv hpath
      -- the root reaches the terminal, so the walk would have stopped there
      have hroot : t.root ∈ t.nodes := List.mem_cons_self
      obtain ⟨s, hs, hpath⟩ := reaches_singleton_iff.mpr hpath
      rw [List.mem_singleton.mp hs] at hpath
      have hend := explore_none (nodup_neighborsWithin allowed) hsources hreach
        (congrArg Prod.snd hexplore) ⟨t.root, (mem_nodeSources hnodes).mpr hroot, hpath⟩
      rw [List.contains_iff_mem.mpr hv] at hend
      cases hend.2

/-- A branch to a terminal attached. -/
theorem reaching_attach (h : Reaching G allowed terminals t) (hlt : ∀ q ∈ allowed, q < G.size)
    {v : ℕ} (hv : v ∈ terminals) {branch : List (ℕ × ℕ)}
    (hbranch : Branch (G.neighborsWithin allowed)
      ((List.range G.size).filter t.contains) v branch) :
    Reaching G allowed terminals { t with edges := t.edges ++ branch } := by
  have hnodes : ∀ q ∈ t.nodes, q < G.size := fun q hq => hlt q (h.allowed q hq)
  have hedge : ∀ e ∈ branch, e.2 ∈ allowed ∧ G.hasEdge e.1 e.2 = true := fun e he =>
    mem_neighborsWithin.mp (hbranch.edge he)
  refine ⟨?_, ?_, ?_, ?_⟩
  · exact h.grows.append_branch (fun q hq => (mem_nodeSources hnodes).mp hq)
      (fun e _ hmem => (mem_nodeSources hnodes).mpr hmem) hbranch
  · intro e he
    rcases List.mem_append.mp he with he | he
    · exact h.coupled e he
    · exact (hedge e he).2
  · intro q hq
    have hq : q ∈ t.root :: (t.edges ++ branch).map (·.2) := hq
    rw [List.map_append, ← List.cons_append] at hq
    rcases List.mem_append.mp hq with hq | hq
    · exact h.allowed q hq
    · obtain ⟨e, he, rfl⟩ := List.mem_map.mp hq
      exact (hedge e he).1
  · intro e he
    rcases List.mem_append.mp he with he | he
    · rcases h.leaf e he with hleaf | ⟨d, hd⟩
      · exact .inl hleaf
      · exact .inr ⟨d, List.mem_append_left _ hd⟩
    · rcases hbranch.leaf he with heq | ⟨d, hd⟩
      · exact .inl (heq ▸ hv)
      · exact .inr ⟨d, List.mem_append_right _ hd⟩

/-- A terminal that is attached is no longer pending. -/
theorem length_pending_lt {branch : List (ℕ × ℕ)} {v : ℕ}
    (hv : v ∈ terminals.filter fun q => !t.contains q) (hbranch : v ∈ branch.map (·.2)) :
    (terminals.filter fun q =>
      !SteinerTree.contains { t with edges := t.edges ++ branch } q).length <
      (terminals.filter fun q => !t.contains q).length := by
  have hnodes : ∀ q, q ∈ SteinerTree.nodes { t with edges := t.edges ++ branch } ↔
      q ∈ t.nodes ∨ q ∈ branch.map (·.2) := by
    intro q
    simp only [SteinerTree.nodes, List.map_append, List.mem_cons, List.mem_append]
    exact or_assoc.symm
  have hfilter : (terminals.filter fun q =>
      !SteinerTree.contains { t with edges := t.edges ++ branch } q) =
      (terminals.filter fun q => !t.contains q).filter fun q => !(branch.map (·.2)).contains q := by
    rw [List.filter_filter]
    refine List.filter_congr fun q _ => ?_
    have := hnodes q
    rw [← contains_iff, ← contains_iff, ← List.contains_iff_mem] at this
    rw [Bool.eq_iff_iff]
    simp only [Bool.and_eq_true, Bool.not_eq_true', ← Bool.not_eq_true, this]
    tauto
  rw [hfilter, ← List.countP_eq_length_filter, List.countP_lt_length_iff]
  exact ⟨v, hv, by simpa using hbranch⟩

/-- **Attaching all terminals**: the fuel is enough, since each branch meets a pending terminal. -/
theorem attach_spec (hlt : ∀ q ∈ allowed, q < G.size) (fuel : ℕ) :
    ∀ t, Reaching G allowed terminals t →
      (terminals.filter fun q => !t.contains q).length ≤ fuel →
      match G.attach allowed terminals fuel t with
      | .ok t' => Spans G allowed terminals t' ∧ t'.root = t.root
      | .error _ => ∃ q ∈ terminals,
          ¬ Relation.ReflTransGen (G.LeadsInto {q | q ∈ allowed}) t.root q := by
  -- nothing pending means that every terminal is a node
  have hdone : ∀ t, Reaching G allowed terminals t →
      (terminals.filter fun q => !t.contains q) = [] → Spans G allowed terminals t := by
    intro t ht hempty
    refine ⟨ht, ?_⟩
    intro q hq
    have := List.filter_eq_nil_iff.mp hempty q hq
    simpa [contains_iff] using this
  induction fuel with
  | zero =>
    intro t ht hfuel
    exact ⟨hdone t ht (List.eq_nil_of_length_eq_zero (by omega)), rfl⟩
  | succ fuel ih =>
    intro t ht hfuel
    by_cases hempty : (terminals.filter fun q => !t.contains q).isEmpty = true
    · have hstop : G.attach allowed terminals (fuel + 1) t = .ok t := by
        rw [attach]
        exact if_pos hempty
      rw [hstop]
      exact ⟨hdone t ht (List.isEmpty_iff.mp hempty), rfl⟩
    · have hbranch := nearestBranch_spec (G := G) (t := t)
        (terminals.filter fun q => !t.contains q) hlt ht.allowed
      cases heq : G.nearestBranch allowed t (terminals.filter fun q => !t.contains q) with
      | none =>
        have hstop : ∃ e, G.attach allowed terminals (fuel + 1) t = .error e := by
          simp only [attach, hempty, heq]
          exact ⟨_, rfl⟩
        obtain ⟨e, hstop⟩ := hstop
        rw [heq] at hbranch
        rw [hstop]
        obtain ⟨v, hv⟩ := List.exists_mem_of_ne_nil _ fun h => hempty (List.isEmpty_iff.mpr h)
        exact ⟨v, (List.mem_filter.mp hv).1, hbranch v hv⟩
      | some branch =>
        have hstep : G.attach allowed terminals (fuel + 1) t =
            G.attach allowed terminals fuel { t with edges := t.edges ++ branch } := by
          simp only [attach, hempty, heq]
          rfl
        rw [heq] at hbranch
        obtain ⟨v, hv, hbranch⟩ := hbranch
        rw [hstep]
        refine ih _ (reaching_attach ht hlt (List.mem_filter.mp hv).1 hbranch) ?_
        have hmem : v ∈ branch.map (·.2) := by
          rcases hbranch.mem with hmem | hmem
          · exact absurd ((List.mem_filter.mp hmem).2) (by simpa using (List.mem_filter.mp hv).2)
          · exact hmem
        have hless := length_pending_lt hv hmem
        omega

/-- The checks before a tree is built. -/
theorem steinerTreeWith_eq {root : ℕ} {usable extra : List ℕ}
    (hlt : ∀ q ∈ usable ++ extra, q < G.size) (hroot : root ∈ usable ++ extra)
    (hterminals : ∀ q ∈ terminals, q ∈ usable ++ extra) :
    G.steinerTreeWith root terminals usable extra =
      G.attach (usable ++ extra) terminals terminals.length ⟨root, []⟩ := by
  have hin : (usable ++ extra).find? (G.size ≤ ·) = none := by
    refine List.find?_eq_none.mpr fun q hq => ?_
    simpa using hlt q hq
  have hallows : ∀ q ∈ usable ++ extra, G.allows (usable ++ extra) q = true := by
    intro q hq
    rw [allows, decide_eq_true (hlt q hq), List.contains_iff_mem.mpr hq]
    rfl
  have hterm : terminals.find? (fun q => !G.allows (usable ++ extra) q) = none := by
    refine List.find?_eq_none.mpr fun q hq => ?_
    rw [hallows q (hterminals q hq)]
    simp
  unfold steinerTreeWith
  simp only [hin, hallows root hroot, hterm]
  rfl

/-- **A computed tree spans.** -/
theorem steinerTreeWith_ok {root : ℕ} {usable extra : List ℕ}
    (h : G.steinerTreeWith root terminals usable extra = .ok t) :
    Spans G (usable ++ extra) terminals t ∧ t.root = root ∧ ∀ q ∈ usable ++ extra, q < G.size := by
  -- success means that every check was passed
  have hchecks : (∀ q ∈ usable ++ extra, q < G.size) ∧ root ∈ usable ++ extra ∧
      ∀ q ∈ terminals, q ∈ usable ++ extra := by
    unfold steinerTreeWith at h
    cases hin : (usable ++ extra).find? (G.size ≤ ·) with
    | some q =>
      simp only [hin] at h
      cases h
    | none =>
      simp only [hin] at h
      have hlt : ∀ q ∈ usable ++ extra, q < G.size := by
        intro q hq
        simpa using List.find?_eq_none.mp hin q hq
      by_cases hroot : G.allows (usable ++ extra) root = true
      · simp only [hroot] at h
        cases hterm : terminals.find? (fun q => !G.allows (usable ++ extra) q) with
        | some q =>
          simp only [hterm] at h
          cases h
        | none =>
          refine ⟨hlt, ?_, ?_⟩
          · exact List.contains_iff_mem.mp (Bool.and_eq_true_iff.mp hroot).2
          · intro q hq
            have hq := List.find?_eq_none.mp hterm q hq
            rw [Bool.not_eq_true, Bool.not_eq_false'] at hq
            exact List.contains_iff_mem.mp (Bool.and_eq_true_iff.mp hq).2
      · rw [Bool.not_eq_true] at hroot
        simp only [hroot] at h
        cases h
  obtain ⟨hlt, hroot, hterminals⟩ := hchecks
  rw [steinerTreeWith_eq hlt hroot hterminals] at h
  have hspec := attach_spec hlt terminals.length ⟨root, []⟩ (reaching_root hroot)
    (List.length_filter_le _ _)
  rw [h] at hspec
  exact ⟨hspec.1, hspec.2, hlt⟩

/-- **A tree exists** when every terminal can be reached. -/
theorem steinerTreeWith_exists {root : ℕ} {usable extra : List ℕ}
    (hlt : ∀ q ∈ usable ++ extra, q < G.size) (hroot : root ∈ usable ++ extra)
    (hterminals : ∀ q ∈ terminals, q ∈ usable ++ extra)
    (hreach : ∀ q ∈ terminals,
      Relation.ReflTransGen (G.LeadsInto {q | q ∈ usable ++ extra}) root q) :
    ∃ t, G.steinerTreeWith root terminals usable extra = .ok t := by
  have hspec := attach_spec hlt terminals.length ⟨root, []⟩
    (reaching_root (G := G) hroot) (List.length_filter_le _ _)
  rw [steinerTreeWith_eq hlt hroot hterminals]
  cases hattach : G.attach (usable ++ extra) terminals terminals.length ⟨root, []⟩ with
  | ok t => exact ⟨t, rfl⟩
  | error e =>
    rw [hattach] at hspec
    obtain ⟨q, hq, hnot⟩ := hspec
    exact absurd (hreach q hq) hnot

/-- A tree that was found spans its terminals, from its root, within usable qubits. -/
theorem steinerTree_ok {root : ℕ} {usable : List ℕ}
    (h : G.steinerTree root terminals usable = .ok t) :
    Spans G usable terminals t ∧ t.root = root ∧ ∀ q ∈ usable, q < G.size := by
  have := steinerTreeWith_ok h
  rwa [List.append_nil] at this

/-- On connected qubits there is a tree. -/
theorem steinerTree_exists {root : ℕ} {usable : List ℕ} (hlt : ∀ q ∈ usable, q < G.size)
    (hroot : root ∈ usable) (hterminals : ∀ q ∈ terminals, q ∈ usable)
    (hconnected : G.ConnectedOn {q | q ∈ usable}) :
    ∃ t, G.steinerTree root terminals usable = .ok t := by
  refine steinerTreeWith_exists ?_ ?_ ?_ ?_ <;> rw [List.append_nil]
  · exact hlt
  · exact hroot
  · exact hterminals
  · exact fun q hq => connectedOn_iff.mp hconnected root hroot q (hterminals q hq)

end CouplingGraph

end CnotSynthesis
