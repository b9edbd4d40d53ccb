import CnotSynthesis.Proofs.Graph.NearestTerminal

/-! # Which of several nearest terminals a Steiner tree takes

A breadth-first walk over ascending lists finds vertices in the order of the ways that lead to them:
shorter ways come first, and of two that are as long the one with the lower vertex where they part,
counted from the source. So a Steiner tree decides between terminals at the same distance by the
ways that lead there, from the tree outwards, and the numbers of the terminals come last.

* **`Way next sources w v`** — the vertices `w` lead from a source to `v`; **`Way.rank w`** — the
  place of `w` among all ways.
* **`Exploration.Ordered`** — the invariant: vertices wait in the order of their ways;
  **`Ordered.visit`** — one visit, **`Ordered.mem_visited`** — what comes before the front has been
  visited.
* **`explore_least`** — a walk stops at the end of the least way to a vertex where it would.
* **`SteinerTree.InOrder`** — a tree put together by least ways;
  **`CouplingGraph.steinerTreeWith_eq_ok_iff`** — these are the computed trees, and no others. -/

namespace CnotSynthesis

variable {next : ℕ → List ℕ} {stop : ℕ → Bool} {sources : List ℕ}

/-! ## Ways and their order -/

/-- **A way** from a source to `v`: the vertices on it, both ends included. -/
inductive Way (next : ℕ → List ℕ) (sources : List ℕ) : List ℕ → ℕ → Prop
  | source {s} : s ∈ sources → Way next sources [s] s
  | step {w v u} : Way next sources w v → u ∈ next v → Way next sources (w ++ [u]) u

namespace Way

variable {w : List ℕ} {v : ℕ}

/-- **The place of a way** among all ways: by its length, then by its vertices from the source
on. -/
def rank (w : List ℕ) : ℕ ×ₗ List ℕ := toLex (w.length, w)

/-- Different ways have different ranks. -/
theorem rank_injective : Function.Injective rank := fun _ _ h =>
  congrArg (fun x => (ofLex x).2) h

/-- A way comes before another one if it is shorter, or as long and earlier in the dictionary. -/
theorem rank_lt_iff {w w' : List ℕ} :
    rank w < rank w' ↔ w.length < w'.length ∨ w.length = w'.length ∧ w < w' :=
  Prod.Lex.toLex_lt_toLex

/-- Lists of the same length differ before their ends. -/
theorem append_lt_append {w w' : List ℕ} (h : w < w') (hlength : w.length = w'.length)
    (x y : List ℕ) : w ++ x < w' ++ y := by
  replace h : List.Lex (· < ·) w w' := h
  change List.Lex _ _ _
  induction h with
  | nil => cases hlength
  | cons _ ih => exact .cons (ih (by simpa using hlength))
  | rel hlt => exact .rel hlt

/-- One more step each does not change which way comes first. -/
theorem rank_append_lt {w w' : List ℕ} (h : rank w < rank w') (u u' : ℕ) :
    rank (w ++ [u]) < rank (w' ++ [u']) := by
  rw [rank_lt_iff] at h ⊢
  simp only [List.length_append, List.length_singleton]
  rcases h with h | ⟨hlength, h⟩
  · exact .inl (by omega)
  · exact .inr ⟨by omega, append_lt_append h hlength [u] [u']⟩

/-- The same step at the end of two ways does not change their order. -/
theorem rank_append_le {w w' : List ℕ} (h : rank w ≤ rank w') (u : ℕ) :
    rank (w ++ [u]) ≤ rank (w' ++ [u]) := by
  rcases h.eq_or_lt with heq | hlt
  · rw [rank_injective heq]
  · exact (rank_append_lt hlt u u).le

/-- A longer way comes later. -/
theorem rank_lt_append (w : List ℕ) (u : ℕ) : rank w < rank (w ++ [u]) :=
  rank_lt_iff.mpr (.inl (by simp))

/-- Ways that part at the last step. -/
theorem rank_append_lt_append (w : List ℕ) {u u' : ℕ} (h : u < u') :
    rank (w ++ [u]) < rank (w ++ [u']) := by
  refine rank_lt_iff.mpr (.inr ⟨by simp, ?_⟩)
  exact List.Lex.append_left _ (.rel h) w

/-- A way of no step comes before every way with one. -/
theorem rank_singleton_lt {w : List ℕ} (hw : w ≠ []) (s u : ℕ) : rank [s] < rank (w ++ [u]) := by
  refine rank_lt_iff.mpr (.inl ?_)
  have := List.length_pos_of_ne_nil hw
  simp only [List.length_append, List.length_singleton]
  omega

/-- The edges along a way. -/
def legs : List ℕ → List (ℕ × ℕ)
  | a :: b :: rest => (a, b) :: legs (b :: rest)
  | _ => []

/-- The last leg of a way. -/
theorem legs_append (w : List ℕ) (v u : ℕ) :
    legs (w ++ [v] ++ [u]) = legs (w ++ [v]) ++ [(v, u)] := by
  induction w with
  | nil => rfl
  | cons a w ih =>
    cases w with
    | nil => rfl
    | cons b w => exact congrArg ((a, b) :: ·) ih

/-- A way ends in its vertex. -/
theorem eq_append (h : Way next sources w v) : ∃ before, w = before ++ [v] := by
  cases h with
  | source => exact ⟨[], rfl⟩
  | step => exact ⟨_, rfl⟩

/-- Ways depend on which sources there are, not on their order. -/
theorem congr {sources' : List ℕ} (h : Way next sources w v)
    (hsources : ∀ q, q ∈ sources ↔ q ∈ sources') : Way next sources' w v := by
  induction h with
  | source hs => exact .source ((hsources _).mp hs)
  | step _ hu ih => exact .step ih hu

end Way

open Way

/-- **A branch follows a way** that grows by one vertex along each of its edges. -/
theorem Branch.way {v : ℕ} {edges : List (ℕ × ℕ)} {path : ℕ → List ℕ}
    (h : Branch next sources v edges) (hsource : ∀ s ∈ sources, path s = [s])
    (hedge : ∀ e ∈ edges, path e.2 = path e.1 ++ [e.2]) :
    Way next sources (path v) v ∧ edges = legs (path v) := by
  induction h with
  | @source s hs =>
    rw [hsource s hs]
    exact ⟨.source hs, rfl⟩
  | @step v u edges _ hu _ _ ih =>
    obtain ⟨hway, hlegs⟩ := ih fun e he => hedge e (List.mem_append_left _ he)
    rw [hedge (v, u) (by simp)]
    refine ⟨.step hway hu, ?_⟩
    obtain ⟨before, hbefore⟩ := hway.eq_append
    rw [hlegs, hbefore, legs_append]

/-! ## The order in which a walk finds vertices -/

namespace Exploration

variable {e : Exploration} {visited rest : List ℕ} {path : ℕ → List ℕ} {v : ℕ}

/-- **Vertices in the order of their ways**: every vertex has the way by which it was found. The
queue is sorted by these, nothing visited comes after it, and the way to a neighbour of what was
visited is no later than that through it. -/
structure Ordered (next : ℕ → List ℕ) (sources : List ℕ) (e : Exploration) (visited : List ℕ)
    (path : ℕ → List ℕ) : Prop where
  source : ∀ s ∈ sources, path s = [s]
  parent : ∀ p ∈ e.parent, path p.1 = path p.2 ++ [p.1]
  next : ∀ v ∈ visited, ∀ u ∈ next v, rank (path u) ≤ rank (path v ++ [u])
  origin : ∀ u ∈ e.queue, u ∈ sources ∨ ∃ w ∈ visited, path u = path w ++ [u]
  queue : e.queue.Pairwise fun a b => rank (path a) < rank (path b)
  visited : ∀ v ∈ visited, ∀ u ∈ e.queue, rank (path v) < rank (path u)

/-- At first the sources wait in ascending order. -/
theorem ordered_start (hsources : sources.Pairwise (· < ·)) :
    Ordered next sources (start sources) [] fun v => [v] where
  source := fun _ _ => rfl
  parent := by simp [start]
  next := by simp
  origin := fun u hu => .inl hu
  queue := hsources.imp fun h => rank_append_lt_append [] h
  visited := by simp

namespace Ordered

/-- The way to what waits is not empty. -/
theorem path_ne_nil (h : Ordered next sources e visited path) (hv : v ∈ e.queue) : path v ≠ [] := by
  rcases h.origin v hv with hsource | ⟨w, _, hpath⟩
  · rw [h.source v hsource]
    exact List.cons_ne_nil v []
  · rw [hpath]
    exact List.concat_ne_nil v _

/-- **What waits comes before what is found next**: it is a source, or was found from something
visited earlier. -/
theorem rank_lt_found (h : Ordered next sources e visited path) (hv : v ∈ e.queue) {u : ℕ}
    (hu : u ∈ e.queue) (x : ℕ) : rank (path u) < rank (path v ++ [x]) := by
  rcases h.origin u hu with hsource | ⟨w, hw, hpath⟩
  · rw [h.source u hsource]
    exact rank_singleton_lt (h.path_ne_nil hv) u x
  · rw [hpath]
    exact rank_append_lt (h.visited w hw v hv) u x

/-- **A visit keeps the order**: what it finds joins the end of the queue, lowest first. -/
theorem visit (hwalk : Walk next stop sources e visited)
    (h : Ordered next sources e visited path) (hqueue : e.queue = v :: rest)
    (hsorted : (next v).Pairwise (· < ·)) :
    ∃ path', Ordered next sources (Exploration.visit next { e with queue := rest } v)
      (v :: visited) path' := by
  obtain ⟨found, _, hvisit, hnew, hfoundSorted⟩ : ∃ found steps,
      Exploration.visit next { e with queue := rest } v =
        ⟨rest ++ found, found ++ e.seen, found.map (·, v) ++ e.parent, steps⟩ ∧
      (∀ u, u ∈ found ↔ u ∈ next v ∧ u ∉ e.seen) ∧ found.Pairwise (· < ·) :=
    ⟨_, _, rfl, fun u => by simp, hsorted.filter _⟩
  have hseen : ∀ u, u ∈ e.seen ↔ u ∈ visited ∨ u ∈ e.queue := fun u =>
    hwalk.perm.mem_iff.trans List.mem_append
  have hv : v ∈ e.queue := hqueue ▸ List.mem_cons_self
  have hrest : ∀ u ∈ rest, u ∈ e.queue := fun u hu => hqueue ▸ List.mem_cons_of_mem v hu
  obtain ⟨hfront, hrestSorted⟩ := List.pairwise_cons.mp (hqueue ▸ h.queue)
  -- the new ways differ from the old ones on what is found only
  obtain ⟨path', hfound, hold⟩ : ∃ path' : ℕ → List ℕ,
      (∀ u ∈ found, path' u = path v ++ [u]) ∧ ∀ u ∈ e.seen, path' u = path u := by
    refine ⟨fun u => if u ∈ found then path v ++ [u] else path u, fun u hu => if_pos hu, ?_⟩
    exact fun u hu => if_neg fun hmem => ((hnew u).mp hmem).2 hu
  have hqueued : ∀ u ∈ e.queue, path' u = path u := fun u hu => hold u ((hseen u).mpr (.inr hu))
  have hpassed : ∀ u ∈ visited, path' u = path u := fun u hu => hold u ((hseen u).mpr (.inl hu))
  refine ⟨path', ?_⟩
  rw [hvisit]
  refine ⟨?_, ?_, ?_, ?_, ?_, ?_⟩
  · intro s hs
    rw [hold s (hwalk.lineage.mem_of_mem hs), h.source s hs]
  · intro p hp
    rcases List.mem_append.mp hp with hp | hp
    · obtain ⟨u, hu, rfl⟩ := List.mem_map.mp hp
      rw [hfound u hu, hqueued v hv]
    · obtain ⟨hchild, hparent⟩ := hwalk.lineage.mem_of_parent hp
      rw [hold _ hchild, hold _ hparent, h.parent p hp]
  · intro w hw u hu
    rcases List.mem_cons.mp hw with rfl | hw
    · rw [hqueued w hv]
      by_cases hmem : u ∈ e.seen
      · rw [hold u hmem]
        rcases (hseen u).mp hmem with hmem | hmem
        · exact ((h.visited u hmem w hv).trans (rank_lt_append _ u)).le
        · exact (h.rank_lt_found hv hmem u).le
      · rw [hfound u ((hnew u).mpr ⟨hu, hmem⟩)]
    · rw [hpassed w hw, hold u (hwalk.closed w hw u hu)]
      exact h.next w hw u hu
  · intro u hu
    rcases List.mem_append.mp hu with hu | hu
    · refine (h.origin u (hrest u hu)).imp_right ?_
      rintro ⟨w, hw, hpath⟩
      refine ⟨w, List.mem_cons_of_mem v hw, ?_⟩
      rw [hqueued u (hrest u hu), hpassed w hw, hpath]
    · exact .inr ⟨v, List.mem_cons_self, by rw [hfound u hu, hqueued v hv]⟩
  · refine List.pairwise_append.mpr ⟨?_, ?_, ?_⟩
    · refine hrestSorted.imp_of_mem fun {a b} ha hb hab => ?_
      rwa [hqueued a (hrest a ha), hqueued b (hrest b hb)]
    · refine hfoundSorted.imp_of_mem fun {a b} ha hb hab => ?_
      rw [hfound a ha, hfound b hb]
      exact rank_append_lt_append _ hab
    · intro a ha b hb
      rw [hqueued a (hrest a ha), hfound b hb]
      exact h.rank_lt_found hv (hrest a ha) b
  · intro w hw u hu
    -- the visited vertex comes after everything visited before it
    have hlast : rank (path' w) ≤ rank (path v) := by
      rcases List.mem_cons.mp hw with rfl | hw
      · exact (congrArg rank (hqueued w hv)).le
      · exact (congrArg rank (hpassed w hw)).le.trans (h.visited w hw v hv).le
    rcases List.mem_append.mp hu with hu | hu
    · rw [hqueued u (hrest u hu)]
      exact hlast.trans_lt (hfront u hu)
    · rw [hfound u hu]
      exact hlast.trans_lt (rank_lt_append _ u)

/-- **What comes before the front of the queue has been visited.** -/
theorem mem_visited (hwalk : Walk next stop sources e visited)
    (h : Ordered next sources e visited path) (hqueue : e.queue = v :: rest) {w : List ℕ} {u : ℕ}
    (hu : Way next sources w u) (hlt : rank w < rank (path v)) :
    u ∈ visited ∧ rank (path u) ≤ rank w := by
  -- a vertex that was seen and comes before the front does not wait
  have hpassed : ∀ u ∈ e.seen, rank (path u) < rank (path v) → u ∈ visited := by
    intro u hmem hlt
    rcases List.mem_append.mp (hwalk.perm.mem_iff.mp hmem) with hmem | hmem
    · exact hmem
    · obtain ⟨hfront, _⟩ := List.pairwise_cons.mp (hqueue ▸ h.queue)
      rcases List.mem_cons.mp (hqueue ▸ hmem) with rfl | hmem
      · exact absurd hlt (lt_irrefl _)
      · exact absurd hlt (hfront u hmem).not_gt
  induction hu with
  | @source s hs =>
    rw [← h.source s hs] at hlt ⊢
    exact ⟨hpassed s (hwalk.lineage.mem_of_mem hs) hlt, le_rfl⟩
  | @step w x u _ hnext ih =>
    obtain ⟨hx, hle⟩ := ih ((rank_lt_append w u).trans hlt)
    have hle : rank (path u) ≤ rank (w ++ [u]) :=
      (h.next x hx u hnext).trans (rank_append_le hle u)
    exact ⟨hpassed u (hwalk.closed x hx u hnext) (hle.trans_lt hlt), hle⟩

end Ordered

end Exploration

/-- **A walk over ascending lists follows the least way** to a vertex at which it would stop. -/
theorem explore_least {size v : ℕ} (hsorted : ∀ v, (next v).Pairwise (· < ·))
    (hsources : sources.Pairwise (· < ·)) (hlt : ∀ v, Reaches next sources v → v < size)
    (hv : (explore next stop size sources).2 = some v) :
    ∃ w, Way next sources w v ∧ (explore next stop size sources).1.branch v = legs w ∧
      ∀ {w' u}, Way next sources w' u → stop u = true → rank w ≤ rank w' := by
  have hnodup : ∀ v, (next v).Nodup := fun v => (hsorted v).imp Nat.ne_of_lt
  obtain ⟨visited, rest, hwalk, ⟨path, hordered⟩, hqueue⟩ := Exploration.Walk.run_stops
    (I := fun e visited => ∃ path, Exploration.Ordered next sources e visited path) hnodup
    (fun hwalk ⟨_, h⟩ hqueue => h.visit hwalk hqueue (hsorted _)) size Exploration.walk_start
    ⟨_, Exploration.ordered_start hsources⟩ hv
  obtain ⟨_, hbranch⟩ := explore_some hnodup (hsources.imp Nat.ne_of_lt) hlt hv
  have hway := hbranch.way hordered.source fun p hp => by
    rcases Exploration.mem_climb _ hp with hmem | hmem
    · cases hmem
    · exact hordered.parent _ hmem
  refine ⟨path v, hway.1, hway.2, fun {w' u} hw' hstop => ?_⟩
  by_contra hearlier
  -- the vertex would have been visited before, and the walk would have stopped there
  have hvisited := (hordered.mem_visited hwalk hqueue hw' (not_le.mp hearlier)).1
  rw [hwalk.quiet u hvisited] at hstop
  cases hstop

/-! ## Trees by least ways -/

namespace SteinerTree

/-- The ways from the nodes of a tree, through allowed qubits, to terminals that are not nodes. -/
def openWays (G : CouplingGraph) (allowed terminals nodes : List ℕ) : Set (List ℕ) :=
  {w | ∃ v ∈ terminals, v ∉ nodes ∧ Way (G.neighborsWithin allowed) nodes w v}

/-- **Put together by least ways**: as long as there are terminals that are not nodes, the least way
to one of them is attached. -/
inductive InOrder (G : CouplingGraph) (allowed terminals : List ℕ) (root : ℕ) :
    List (ℕ × ℕ) → List (ℕ × ℕ) → Prop
  | done {edges} : (∀ q ∈ terminals, q ∈ root :: edges.map (·.2)) →
      InOrder G allowed terminals root edges edges
  | attach {edges edges' w} : w ∈ openWays G allowed terminals (root :: edges.map (·.2)) →
      (∀ w' ∈ openWays G allowed terminals (root :: edges.map (·.2)), rank w ≤ rank w') →
      InOrder G allowed terminals root (edges ++ legs w) edges' →
      InOrder G allowed terminals root edges edges'

variable {G : CouplingGraph} {allowed terminals : List ℕ} {root : ℕ} {edges : List (ℕ × ℕ)}

/-- **The order leaves no choice.** -/
theorem InOrder.unique {edges₁ edges₂ : List (ℕ × ℕ)}
    (h₁ : InOrder G allowed terminals root edges edges₁)
    (h₂ : InOrder G allowed terminals root edges edges₂) : edges₁ = edges₂ := by
  induction h₁ with
  | done hall =>
    cases h₂ with
    | done => rfl
    | attach hopen =>
      obtain ⟨v, hv, hnew, _⟩ := hopen
      exact absurd (hall v hv) hnew
  | attach hopen hleast _ ih =>
    cases h₂ with
    | done hall =>
      obtain ⟨v, hv, hnew, _⟩ := hopen
      exact absurd (hall v hv) hnew
    | attach hopen' hleast' h₂ =>
      have heq := rank_injective (le_antisymm (hleast _ hopen') (hleast' _ hopen))
      exact ih (heq ▸ h₂)

end SteinerTree

namespace CouplingGraph

open SteinerTree

variable {G : CouplingGraph} {allowed terminals : List ℕ} {root : ℕ} {t : SteinerTree}

/-- Neighbours are listed in ascending order. -/
theorem sorted_neighborsWithin (G : CouplingGraph) (allowed : List ℕ) (q : ℕ) :
    (G.neighborsWithin allowed q).Pairwise (· < ·) :=
  (G.pairwise_neighbors q).filter _

/-- **The nearest branch follows the least way.** -/
theorem nearestBranch_least {branch : List (ℕ × ℕ)} (hlt : ∀ q ∈ allowed, q < G.size)
    (ht : ∀ q ∈ t.nodes, q ∈ allowed)
    (h : G.nearestBranch allowed t (terminals.filter fun q => !t.contains q) = some branch) :
    ∃ w ∈ openWays G allowed terminals t.nodes, branch = legs w ∧
      ∀ w' ∈ openWays G allowed terminals t.nodes, rank w ≤ rank w' := by
  have hnodes : ∀ q, q ∈ (List.range G.size).filter t.contains ↔ q ∈ t.nodes := fun q =>
    mem_nodeSources fun q hq => hlt q (ht q hq)
  have hpending : ∀ v, (terminals.filter fun q => !t.contains q).contains v = true ↔
      v ∈ terminals ∧ v ∉ t.nodes := by
    intro v
    rw [List.contains_iff_mem, List.mem_filter, ← contains_iff]
    simp
  have hsources : ((List.range G.size).filter t.contains).Pairwise (· < ·) :=
    List.pairwise_lt_range.filter _
  have hreach : ∀ v, Reaches (G.neighborsWithin allowed) ((List.range G.size).filter t.contains) v →
      v < G.size := fun v => reaches_lt fun q hq => List.mem_range.mp (List.mem_filter.mp hq).1
  unfold nearestBranch at h
  split at h
  · next e v hexplore =>
    have hfound := congrArg Prod.snd hexplore
    obtain ⟨hstop, _⟩ :=
      explore_some (nodup_neighborsWithin allowed) (hsources.imp Nat.ne_of_lt) hreach hfound
    obtain ⟨w, hway, hbranch, hleast⟩ :=
      explore_least (sorted_neighborsWithin G allowed) hsources hreach hfound
    rw [hexplore] at hbranch
    obtain ⟨hterminal, hnew⟩ := (hpending v).mp hstop
    refine ⟨w, ⟨v, hterminal, hnew, hway.congr hnodes⟩, ?_, ?_⟩
    · rw [← Option.some.inj h, ← hbranch]
    · rintro w' ⟨u, hu, hopen, hway'⟩
      exact hleast (hway'.congr fun q => (hnodes q).symm) ((hpending u).mpr ⟨hu, hopen⟩)
  · cases h

/-- **Attaching all terminals** goes by least ways. -/
theorem inOrder_attach (hlt : ∀ q ∈ allowed, q < G.size) (fuel : ℕ) :
    ∀ t t', Reaching G allowed terminals t →
      (terminals.filter fun q => !t.contains q).length ≤ fuel →
      G.attach allowed terminals fuel t = .ok t' →
      InOrder G allowed terminals t.root t.edges t'.edges := by
  -- nothing pending means that every terminal is a node
  have hdone : ∀ t : SteinerTree, (terminals.filter fun q => !t.contains q) = [] →
      InOrder G allowed terminals t.root t.edges t.edges := by
    intro t hempty
    refine .done fun q hq => contains_iff.mp ?_
    simpa using List.filter_eq_nil_iff.mp hempty q hq
  induction fuel with
  | zero =>
    rintro t t' _ hfuel ⟨⟩
    exact hdone t (List.eq_nil_of_length_eq_zero (by omega))
  | succ fuel ih =>
    intro t t' ht hfuel hattach
    unfold attach at hattach
    dsimp only at hattach
    split at hattach
    · next hempty =>
      cases hattach
      exact hdone t (List.isEmpty_iff.mp hempty)
    · split at hattach
      · next branch hbranch =>
        obtain ⟨w, hopen, hlegs, hleast⟩ := nearestBranch_least hlt ht.allowed hbranch
        obtain ⟨v, hv, hpath⟩ : ∃ v ∈ terminals.filter fun q => !t.contains q,
            Branch (G.neighborsWithin allowed) ((List.range G.size).filter t.contains) v
              branch := by
          have hspec := nearestBranch_spec (G := G) (t := t)
            (terminals.filter fun q => !t.contains q) hlt ht.allowed
          rwa [hbranch] at hspec
        have hmem : v ∈ branch.map (·.2) := by
          refine hpath.mem.resolve_left fun hmem => ?_
          have hnew := (List.mem_filter.mp hv).2
          rw [(List.mem_filter.mp hmem).2] at hnew
          cases hnew
        have hless := length_pending_lt hv hmem
        have hrest := ih _ t' (reaching_attach ht hlt (List.mem_filter.mp hv).1 hpath) (by omega)
          hattach
        rw [hlegs] at hrest
        exact .attach hopen hleast hrest
      · cases hattach

/-- **Ties between terminals are broken by the ways that lead to them.** A computed tree is put
together by least ways, and a tree that is put together so from joinable terminals is the computed
one: of all ways from the tree to a terminal that is not attached yet a shortest is taken, and of
the shortest ones the least, compared qubit by qubit from the tree on. -/
theorem steinerTreeWith_eq_ok_iff {usable extra : List ℕ} :
    G.steinerTreeWith root terminals usable extra = .ok t ↔
      G.Joinable (usable ++ extra) root terminals ∧ t.root = root ∧
        InOrder G (usable ++ extra) terminals root [] t.edges := by
  have hcomputed : ∀ {t : SteinerTree}, G.steinerTreeWith root terminals usable extra = .ok t →
      t.root = root ∧ InOrder G (usable ++ extra) terminals root [] t.edges := by
    intro t h
    obtain ⟨hspans, rfl, hlt⟩ := steinerTreeWith_ok h
    have hroot : t.root ∈ usable ++ extra := hspans.allowed t.root List.mem_cons_self
    rw [steinerTreeWith_eq hlt hroot fun q hq => hspans.allowed q (hspans.terminal q hq)] at h
    exact ⟨rfl, inOrder_attach hlt _ ⟨t.root, []⟩ t (reaching_root hroot)
      (List.length_filter_le _ _) h⟩
  constructor
  · intro h
    exact ⟨exists_steinerTreeWith_iff.mp ⟨t, h⟩, hcomputed h⟩
  · rintro ⟨hjoinable, hroot, horder⟩
    obtain ⟨t', h'⟩ := exists_steinerTreeWith_iff.mpr hjoinable
    obtain ⟨hroot', horder'⟩ := hcomputed h'
    have heq : t' = t :=
      congrArg₂ SteinerTree.mk (hroot'.trans hroot.symm) (horder'.unique horder)
    rw [h', heq]

/-- A qubit coupled to one of the qubits `A`, and not one of them, is one step away. -/
theorem isLeast_walkLengths_one {S A : Set ℕ} {a b : ℕ} (ha : a ∈ A) (hb : b ∉ A) (haS : a ∈ S)
    (hbS : b ∈ S) (hedge : G.hasEdge a b = true) : IsLeast (G.walkLengths S A {b}) 1 := by
  constructor
  · have hadj : (G.toSimpleGraph.induce S).Adj ⟨a, haS⟩ ⟨b, hbS⟩ := hedge
    exact ⟨⟨a, haS⟩, ⟨b, hbS⟩, hadj.toWalk, ha, rfl, rfl⟩
  · rintro k ⟨x, y, p, hx, rfl, rfl⟩
    refine Nat.one_le_iff_ne_zero.mpr fun hzero => hb ?_
    rw [← SimpleGraph.Walk.eq_of_length_eq_zero hzero]
    exact hx

/-- **The lower number need not win.** When the tree has the nodes `1` and `0`, the terminals `2`
and `3` are both one step away; `3` is attached first, for it hangs on the lower node. -/
theorem steinerTreeWith_not_lowest_first :
    let G := assemble "custom" 4 [0, 1, 2, 3] [(0, 1), (0, 3), (1, 2)] (by decide)
      (by simp [IsCoupling])
    G.steinerTreeWith 1 [0, 2, 3] [0, 1, 2, 3] [] =
        .ok ⟨1, [(1, 0)] ++ [(0, 3)] ++ [(1, 2)]⟩ ∧
      IsLeast (G.walkLengths {q | q ∈ [0, 1, 2, 3]} {q | q ∈ [1, 0]} {2}) 1 ∧
      IsLeast (G.walkLengths {q | q ∈ [0, 1, 2, 3]} {q | q ∈ [1, 0]} {3}) 1 := by
  intro G
  have htwo : G.hasEdge 1 2 = true := by decide
  have hthree : G.hasEdge 0 3 = true := by decide
  exact ⟨by decide,
    isLeast_walkLengths_one (by simp) (by simp) (by simp) (by simp) htwo,
    isLeast_walkLengths_one (by simp) (by simp) (by simp) (by simp) hthree⟩

end CouplingGraph

end CnotSynthesis
