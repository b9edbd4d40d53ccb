import CnotSynthesis.Proofs.Graph.Layers
import CnotSynthesis.Proofs.Graph.SteinerTree

/-! # Steiner trees grow towards the nearest terminal

* **`CouplingGraph.Joinable`** — what a Steiner tree asks for: qubits of the graph, and every
  terminal connected to the root among those that are allowed.
* **`CouplingGraph.exists_steinerTreeWith_iff`** — there is a tree exactly then.
* **`SteinerTree.Attached`** — a tree put together branch by branch, each one a shortest path to the
  nearest terminal; **`CouplingGraph.attached_steinerTreeWith`** — computed trees are such trees. -/

namespace CnotSynthesis

/-- In a growing tree a parent is the root or an earlier child. -/
theorem Grows.parent_earlier {root : ℕ} {edges : List (ℕ × ℕ)} (h : Grows root edges) {i : ℕ}
    {e : ℕ × ℕ} (he : edges[i]? = some e) : e.1 = root ∨ e.1 ∈ (edges.take i).map (·.2) := by
  induction h with
  | nil => simp at he
  | @snoc edges p c _ hp _ ih =>
    rcases Nat.lt_or_ge i edges.length with hi | hi
    · rw [List.getElem?_append_left hi] at he
      rw [List.take_append_of_le_length hi.le]
      exact ih he
    · -- the last edge, and all others come before it
      rw [List.getElem?_append_right hi, List.getElem?_singleton] at he
      split at he
      · cases he
        rw [List.take_append_of_le_length (by omega), List.take_of_length_le hi]
        exact List.mem_cons.mp hp
      · cases he

/-- Only which qubits are sources matters to a branch. -/
theorem Branch.congr {next : ℕ → List ℕ} {sources sources' : List ℕ} {v : ℕ}
    {edges : List (ℕ × ℕ)} (h : Branch next sources v edges)
    (hsources : ∀ q, q ∈ sources ↔ q ∈ sources') : Branch next sources' v edges := by
  induction h with
  | source hs => exact .source ((hsources _).mp hs)
  | step _ hu hnew hfresh ih => exact .step ih hu (fun hmem => hnew ((hsources _).mpr hmem)) hfresh

namespace CouplingGraph

variable {G : CouplingGraph} {allowed terminals : List ℕ} {root : ℕ} {t : SteinerTree}

/-! ## Lengths of paths -/

/-- The lengths of the walks inside `S` from one of the qubits `A` to one of the qubits `B`. -/
def walkLengths (G : CouplingGraph) (S A B : Set ℕ) : Set ℕ :=
  {k | ∃ (a b : S) (p : (G.toSimpleGraph.induce S).Walk a b), a.1 ∈ A ∧ b.1 ∈ B ∧ p.length = k}

/-- Walking on from a qubit that was reached. -/
theorem reachedIn_of_walk {sources : List ℕ} {a b : {q | q ∈ allowed}}
    (p : (G.toSimpleGraph.induce {q | q ∈ allowed}).Walk a b) :
    ∀ {j : ℕ}, ReachedIn (G.neighborsWithin allowed) sources j a.1 →
      ReachedIn (G.neighborsWithin allowed) sources (j + p.length) b.1 := by
  induction p with
  | nil => exact fun h => h
  | @cons a c b hadj p ih =>
    intro j h
    rw [SimpleGraph.Walk.length_cons, Nat.add_comm p.length 1, ← Nat.add_assoc]
    exact ih (.step h (mem_neighborsWithin.mpr ⟨c.2, hadj⟩))

/-- **Steps of a walk among allowed qubits** are those of walks in the induced subgraph. -/
theorem reachedIn_iff {sources : List ℕ} (hsources : ∀ q ∈ sources, q ∈ allowed) {k v : ℕ} :
    ReachedIn (G.neighborsWithin allowed) sources k v ↔
      k ∈ G.walkLengths {q | q ∈ allowed} {q | q ∈ sources} {v} := by
  constructor
  · intro h
    induction h with
    | @source s hs => exact ⟨⟨s, hsources s hs⟩, ⟨s, hsources s hs⟩, .nil, hs, rfl, rfl⟩
    | @step k v u _ hu ih =>
      obtain ⟨a, b, p, ha, rfl, rfl⟩ := ih
      obtain ⟨hallowed, hedge⟩ := mem_neighborsWithin.mp hu
      have hadj : (G.toSimpleGraph.induce {q | q ∈ allowed}).Adj b ⟨u, hallowed⟩ := hedge
      exact ⟨a, ⟨u, hallowed⟩, p.concat hadj, ha, rfl, p.length_concat hadj⟩
  · rintro ⟨a, b, p, ha, rfl, rfl⟩
    have := reachedIn_of_walk p (.source ha)
    rwa [Nat.zero_add] at this

end CouplingGraph

/-! ## Branch by branch -/

/-- **Attached branch by branch**: each branch leads from the tree built so far to a terminal that
is not attached yet, and no way from the tree to such a terminal is shorter. -/
inductive SteinerTree.Attached (G : CouplingGraph) (allowed terminals : List ℕ) (root : ℕ) :
    List (ℕ × ℕ) → Prop
  | root : Attached G allowed terminals root []
  | branch {edges branch v} : Attached G allowed terminals root edges → v ∈ terminals →
      v ∉ root :: edges.map (·.2) →
      Branch (G.neighborsWithin allowed) (root :: edges.map (·.2)) v branch →
      IsLeast (G.walkLengths {q | q ∈ allowed} {q | q ∈ root :: edges.map (·.2)}
        {q | q ∈ terminals ∧ q ∉ root :: edges.map (·.2)}) branch.length →
      Attached G allowed terminals root (edges ++ branch)

namespace CouplingGraph

open SteinerTree

variable {G : CouplingGraph} {allowed terminals : List ℕ} {root : ℕ} {t : SteinerTree}

/-- **The nearest branch is a shortest one.** -/
theorem nearestBranch_isLeast {pending : List ℕ} {branch : List (ℕ × ℕ)}
    (hlt : ∀ q ∈ allowed, q < G.size) (ht : ∀ q ∈ t.nodes, q ∈ allowed)
    (h : G.nearestBranch allowed t pending = some branch) :
    ∃ v ∈ pending, Branch (G.neighborsWithin allowed) t.nodes v branch ∧
      IsLeast (G.walkLengths {q | q ∈ allowed} {q | q ∈ t.nodes} {q | q ∈ pending})
        branch.length := by
  have hnodes : ∀ q, q ∈ (List.range G.size).filter t.contains ↔ q ∈ t.nodes := fun q =>
    mem_nodeSources fun q hq => hlt q (ht q hq)
  have hsources : ((List.range G.size).filter t.contains).Nodup := List.nodup_range.filter _
  have hreach : ∀ v, Reaches (G.neighborsWithin allowed) ((List.range G.size).filter t.contains) v →
      v < G.size := fun v => reaches_lt fun q hq => List.mem_range.mp (List.mem_filter.mp hq).1
  unfold nearestBranch at h
  cases hexplore : explore (G.neighborsWithin allowed) pending.contains G.size
      ((List.range G.size).filter t.contains) with
  | mk e found =>
    rw [hexplore] at h
    cases found with
    | none => cases h
    | some v =>
      cases h
      have hfound := congrArg Prod.snd hexplore
      obtain ⟨hstop, hbranch⟩ := explore_some (nodup_neighborsWithin allowed) hsources hreach hfound
      have hnear :=
        @explore_nearest _ _ _ _ _ (nodup_neighborsWithin allowed) hsources hreach hfound
      rw [hexplore] at hbranch hnear
      have hbranch := hbranch.congr hnodes
      have hv : v ∈ pending := List.contains_iff_mem.mp hstop
      refine ⟨v, hv, hbranch, ?_, ?_⟩
      · obtain ⟨a, b, p, ha, rfl, hp⟩ := (reachedIn_iff ht).mp hbranch.reachedIn
        exact ⟨a, b, p, ha, hv, hp⟩
      · rintro k ⟨a, b, p, ha, hb, hp⟩
        have hk := (reachedIn_iff fun q hq => ht q ((hnodes q).mp hq)).mpr
          ⟨a, b, p, (hnodes a.1).mpr ha, rfl, hp⟩
        exact hnear hk (List.contains_iff_mem.mpr hb)

/-- **Attaching all terminals** goes branch by branch. -/
theorem attached_attach (hlt : ∀ q ∈ allowed, q < G.size) (fuel : ℕ) :
    ∀ t t', Reaching G allowed terminals t → Attached G allowed terminals t.root t.edges →
      G.attach allowed terminals fuel t = .ok t' →
      Attached G allowed terminals t'.root t'.edges := by
  induction fuel with
  | zero =>
    rintro t t' _ h ⟨⟩
    exact h
  | succ fuel ih =>
    intro t t' ht h hattach
    unfold attach at hattach
    dsimp only at hattach
    split at hattach
    · cases hattach
      exact h
    · split at hattach
      · next branch hbranch =>
        obtain ⟨v, hv, hpath, hleast⟩ := nearestBranch_isLeast hlt ht.allowed hbranch
        obtain ⟨hterminal, hpending⟩ := List.mem_filter.mp hv
        have hnew : v ∉ t.nodes := by simpa [← contains_iff] using hpending
        have hsources : ∀ q, q ∈ t.nodes ↔ q ∈ (List.range G.size).filter t.contains := fun q =>
          (mem_nodeSources fun q hq => hlt q (ht.allowed q hq)).symm
        refine ih _ t' (reaching_attach ht hlt hterminal (hpath.congr hsources)) ?_ hattach
        refine .branch h hterminal hnew hpath ?_
        -- the pending terminals are those that are not nodes
        have hset : {q | q ∈ terminals.filter fun q => !t.contains q} =
            {q | q ∈ terminals ∧ q ∉ t.root :: t.edges.map (·.2)} := by
          ext q
          simp [contains, nodes]
        rw [← hset]
        exact hleast
      · cases hattach

/-- **Computed trees grow branch by branch**, each time to the nearest terminal. -/
theorem attached_steinerTreeWith {usable extra : List ℕ}
    (h : G.steinerTreeWith root terminals usable extra = .ok t) :
    Attached G (usable ++ extra) terminals root t.edges := by
  obtain ⟨hspans, rfl, hlt⟩ := steinerTreeWith_ok h
  have hroot : t.root ∈ usable ++ extra := hspans.allowed t.root List.mem_cons_self
  rw [steinerTreeWith_eq hlt hroot fun q hq => hspans.allowed q (hspans.terminal q hq)] at h
  exact attached_attach hlt _ ⟨t.root, []⟩ t (reaching_root hroot) .root h

/-! ## When there is a tree -/

/-- **Joinable terminals**: the allowed qubits are qubits of the graph, and every terminal is
connected to the root in the subgraph that they induce. -/
structure Joinable (G : CouplingGraph) (allowed : List ℕ) (root : ℕ) (terminals : List ℕ) :
    Prop where
  inGraph : ∀ q ∈ allowed, q < G.size
  rootAllowed : root ∈ allowed
  allAllowed : ∀ q ∈ terminals, q ∈ allowed
  connected : ∀ q (hq : q ∈ terminals),
    (G.toSimpleGraph.induce {q | q ∈ allowed}).Reachable ⟨root, rootAllowed⟩ ⟨q, allAllowed q hq⟩

/-- The nodes of a tree that grows among the allowed qubits are connected to its root. -/
theorem reflTransGen_of_reaching (h : Reaching G allowed terminals t) {q : ℕ} (hq : q ∈ t.nodes) :
    Relation.ReflTransGen (G.LeadsInto {q | q ∈ allowed}) t.root q := by
  -- along the growing edges, each of which hangs on a node that is connected already
  have hgrow : ∀ {edges : List (ℕ × ℕ)}, Grows t.root edges →
      (∀ e ∈ edges, G.LeadsInto {q | q ∈ allowed} e.1 e.2) → ∀ q ∈ t.root :: edges.map (·.2),
      Relation.ReflTransGen (G.LeadsInto {q | q ∈ allowed}) t.root q := by
    intro edges hgrows
    induction hgrows with
    | nil =>
      intro _ q hq
      rw [List.mem_singleton.mp hq]
    | @snoc edges p c _ hp _ ih =>
      intro hedge q hq
      have ih := ih fun e he => hedge e (List.mem_append_left _ he)
      rw [List.map_append, ← List.cons_append] at hq
      rcases List.mem_append.mp hq with hq | hq
      · exact ih q hq
      · rw [List.mem_singleton.mp hq]
        exact (ih p hp).tail (hedge (p, c) (by simp))
  refine hgrow h.grows (fun e he => ⟨h.allowed _ ?_, h.coupled e he⟩) q hq
  exact List.mem_cons_of_mem _ (List.mem_map_of_mem he)

/-- **There is a tree exactly if the terminals are joinable.** -/
theorem exists_steinerTreeWith_iff {usable extra : List ℕ} :
    (∃ t, G.steinerTreeWith root terminals usable extra = .ok t) ↔
      G.Joinable (usable ++ extra) root terminals := by
  constructor
  · rintro ⟨t, h⟩
    obtain ⟨hspans, rfl, hlt⟩ := steinerTreeWith_ok h
    refine ⟨hlt, hspans.allowed _ List.mem_cons_self,
      fun q hq => hspans.allowed q (hspans.terminal q hq), ?_⟩
    intro q hq
    exact (reachable_induce_iff _ _).mpr
      (reflTransGen_of_reaching hspans.toReaching (hspans.terminal q hq))
  · intro h
    refine steinerTreeWith_exists h.inGraph h.rootAllowed h.allAllowed fun q hq => ?_
    exact (reachable_induce_iff h.rootAllowed (h.allAllowed q hq)).mp (h.connected q hq)

/-- **The specification of Steiner trees.** There is a tree exactly if the terminals are joinable,
and a structural error otherwise. Its children are different from each other and from the root,
parents come before children, edges are couplings among the allowed qubits, all terminals are nodes
and all leaves are terminals, and it grows by shortest branches to the nearest terminal. -/
theorem steinerTreeWith_specification (G : CouplingGraph) (root : ℕ)
    (terminals usable extra : List ℕ) :
    ((∃ t, G.steinerTreeWith root terminals usable extra = .ok t) ↔
      G.Joinable (usable ++ extra) root terminals) ∧
    ((∃ cause : StructuralCause, G.steinerTreeWith root terminals usable extra = .error cause) ↔
      ¬ G.Joinable (usable ++ extra) root terminals) ∧
    ∀ t, G.steinerTreeWith root terminals usable extra = .ok t →
      t.root = root ∧
      (t.edges.map (·.2)).Nodup ∧ root ∉ t.edges.map (·.2) ∧
      (∀ i e, t.edges[i]? = some e → e.1 = root ∨ e.1 ∈ (t.edges.take i).map (·.2)) ∧
      (∀ e ∈ t.edges, G.hasEdge e.1 e.2 = true) ∧
      (∀ q ∈ t.nodes, q ∈ usable ∨ q ∈ extra) ∧
      (∀ q ∈ terminals, q ∈ t.nodes) ∧
      (∀ q ∈ t.edges.map (·.2), (∀ d, (q, d) ∉ t.edges) → q ∈ terminals) ∧
      Attached G (usable ++ extra) terminals root t.edges := by
  have hok : (∃ t, G.steinerTreeWith root terminals usable extra = .ok t) ↔
      G.Joinable (usable ++ extra) root terminals := exists_steinerTreeWith_iff
  refine ⟨hok, ?_, ?_⟩
  · rw [← hok]
    cases G.steinerTreeWith root terminals usable extra <;> simp
  · intro t h
    obtain ⟨hspans, rfl, _⟩ := steinerTreeWith_ok h
    obtain ⟨hroot, hnodup⟩ := List.nodup_cons.mp hspans.grows.nodup
    refine ⟨rfl, hnodup, hroot, fun i e => hspans.grows.parent_earlier, hspans.coupled, ?_,
      hspans.terminal, ?_, attached_steinerTreeWith h⟩
    · exact fun q hq => List.mem_append.mp (hspans.allowed q hq)
    · intro q hq hleaf
      obtain ⟨e, he, rfl⟩ := List.mem_map.mp hq
      exact (hspans.leaf e he).resolve_right fun ⟨d, hd⟩ => hleaf d hd

/-- On a line, the nearer terminal first; and without the qubit between them two qubits cannot be
joined. -/
theorem steinerTreeWith_specification_line :
    (line 5).steinerTreeWith 2 [0, 3] [0, 1, 2] [3] = .ok ⟨2, [(2, 3), (2, 1), (1, 0)]⟩ ∧
      (line 5).Joinable [0, 1, 2, 3] 2 [0, 3] ∧
      Attached (line 5) [0, 1, 2, 3] [0, 3] 2 [(2, 3), (2, 1), (1, 0)] ∧
      ¬ (line 5).Joinable [0, 2] 2 [0] := by
  have hok : (line 5).steinerTreeWith 2 [0, 3] [0, 1, 2] [3] =
      .ok ⟨2, [(2, 3), (2, 1), (1, 0)]⟩ := by decide
  obtain ⟨hjoinable, _, htree⟩ := steinerTreeWith_specification (line 5) 2 [0, 3] [0, 1, 2] [3]
  obtain ⟨_, _, _, _, _, _, _, _, hattached⟩ := htree _ hok
  refine ⟨hok, hjoinable.mp ⟨_, hok⟩, hattached, ?_⟩
  exact (steinerTreeWith_specification (line 5) 2 [0] [0, 2] []).2.1.mp
    ⟨.unreachable [0] 2, by decide⟩

end CouplingGraph

end CnotSynthesis
