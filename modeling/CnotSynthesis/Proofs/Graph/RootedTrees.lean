import CnotSynthesis.Graph.Standard
import CnotSynthesis.Proofs.Graph.SteinerTree

/-! # Rooted trees

A growing tree is followed from the root down or from the leaves up. Pruning keeps the ways from the
root to the nodes that satisfy a condition.

* **`Grows.topDown`**, **`Grows.bottomUp`** — the two inductions over the nodes of a growing tree.
* **`SteinerTree.IsLeaf`** — a node other than the root on which nothing hangs;
  **`SteinerTree.exists_leaf`** — there is one at or below every child.
* **`SteinerTree.below edges v`** — the nodes strictly below `v`, found in one pass over the edges
  (`SteinerTree.mem_below_iff`).
* **`SteinerTree.marks_mark`**, **`SteinerTree.mem_mark_iff`** — what one pass over the edges marks.
* **`SteinerTree.mem_edges_prune_iff`** — an edge is kept if a node at or below its child is to be
  kept; **`SteinerTree.prune_eq_self`** — nothing goes if all leaves are to be kept.
* **`SteinerTree.prune_specification`** — what pruning leaves of a growing tree. -/

namespace CnotSynthesis

/-! ## Up and down a growing tree -/

/-- Node `c` hangs on node `p`. -/
def ParentOf (edges : List (ℕ × ℕ)) (p c : ℕ) : Prop := (p, c) ∈ edges

namespace Grows

variable {root : ℕ} {edges : List (ℕ × ℕ)} {P : ℕ → Prop}

/-- **From the root down**: what holds of the root and passes from parents to children holds of
every node. -/
theorem topDown (h : Grows root edges) (hroot : P root)
    (hstep : ∀ p c, ParentOf edges p c → P p → P c) : ∀ q ∈ root :: edges.map (·.2), P q := by
  induction h with
  | nil => simpa using hroot
  | @snoc edges p c _ hp _ ih =>
    have ih := ih fun a b hab => hstep a b (List.mem_append_left _ hab)
    rw [List.map_append, ← List.cons_append]
    intro q hq
    rcases List.mem_append.mp hq with hq | hq
    · exact ih q hq
    · have hqc : q = c := by simpa using hq
      exact hqc ▸ hstep p c (by simp [ParentOf]) (ih p hp)

/-- **From the leaves up**: what holds of a node if it holds of its children holds of every node. -/
theorem bottomUp (h : Grows root edges) (hstep : ∀ q, (∀ d, ParentOf edges q d → P d) → P q)
    (q : ℕ) : P q := by
  induction h generalizing q with
  | nil => exact hstep q fun d hd => nomatch hd
  | @snoc edges p c h hp hc ih =>
    -- nothing hangs on the last child
    have hlast : P c := by
      refine hstep c fun d hd => ?_
      rcases List.mem_append.mp hd with hd | hd
      · exact absurd rfl (h.not_end hc hd).1
      · have hcp : c = p := (Prod.ext_iff.mp (List.mem_singleton.mp hd)).1
        exact absurd (hcp ▸ hp) hc
    refine ih (fun q hq => hstep q fun d hd => ?_) q
    rcases List.mem_append.mp hd with hd | hd
    · exact hq d hd
    · have hdc : d = c := (Prod.ext_iff.mp (List.mem_singleton.mp hd)).2
      exact hdc ▸ hlast

/-- The root leads to every node. -/
theorem root_leads (h : Grows root edges) :
    ∀ q ∈ root :: edges.map (·.2), Relation.ReflTransGen (ParentOf edges) root q :=
  h.topDown .refl fun _ _ hpc hp => hp.tail hpc

/-- **One more edge** leads to its child from where its parent was led to, and nowhere else. -/
theorem transGen_snoc {p c v s : ℕ} (h : Grows root edges) (hp : p ∈ root :: edges.map (·.2))
    (hc : c ∉ root :: edges.map (·.2)) :
    Relation.TransGen (ParentOf (edges ++ [(p, c)])) v s ↔
      Relation.TransGen (ParentOf edges) v s ∨
        s = c ∧ Relation.ReflTransGen (ParentOf edges) v p := by
  have hmono : ParentOf edges ≤ ParentOf (edges ++ [(p, c)]) := fun _ _ hab =>
    List.mem_append_left _ hab
  have hlast : ParentOf (edges ++ [(p, c)]) p c := List.mem_append_right _ List.mem_cons_self
  constructor
  · intro hs
    induction hs with
    | @single b hvb =>
      rcases List.mem_append.mp hvb with hvb | hvb
      · exact .inl (.single hvb)
      · obtain ⟨rfl, rfl⟩ := Prod.ext_iff.mp (List.mem_singleton.mp hvb)
        exact .inr ⟨rfl, .refl⟩
    | @tail a b _ hab ih =>
      -- the way ends at the last child, since nothing hangs on it
      rcases List.mem_append.mp hab with hab | hab
      · exact .inl ((ih.resolve_right fun hac => (h.not_end hc hab).1 hac.1).tail hab)
      · obtain ⟨rfl, rfl⟩ := Prod.ext_iff.mp (List.mem_singleton.mp hab)
        have ih := ih.resolve_right fun hac => hc (hac.1 ▸ hp)
        exact .inr ⟨rfl, ih.to_reflTransGen⟩
  · rintro (hs | ⟨rfl, hvp⟩)
    · exact Relation.TransGen.mono hmono _ _ hs
    · exact .tail' (Relation.ReflTransGen.mono hmono _ _ hvp) hlast

end Grows

namespace SteinerTree

variable {t : SteinerTree} {keep : ℕ → Bool}

/-! ## Children and leaves -/

/-- The children: every node but the root. -/
def children (t : SteinerTree) : List ℕ := t.edges.map (·.2)

/-- The lower end of an edge is a child. -/
theorem mem_children {e : ℕ × ℕ} (he : e ∈ t.edges) : e.2 ∈ t.children := List.mem_map_of_mem he

/-- The root is nobody's child. -/
theorem root_notMem_children (h : Grows t.root t.edges) : t.root ∉ t.children :=
  (List.nodup_cons.mp h.nodup).1

/-- Children are nodes. -/
theorem mem_nodes_of_mem_children {q : ℕ} (h : q ∈ t.children) : q ∈ t.nodes :=
  List.mem_cons_of_mem _ h

/-- A leaf: a node other than the root on which nothing hangs. -/
def IsLeaf (t : SteinerTree) (q : ℕ) : Prop := q ∈ t.children ∧ ∀ d, (q, d) ∉ t.edges

/-- **There is a leaf at or below every child.** -/
theorem exists_leaf (h : Grows t.root t.edges) {q : ℕ} (hq : q ∈ t.children) :
    ∃ l, t.IsLeaf l ∧ Relation.ReflTransGen (ParentOf t.edges) q l := by
  induction q using h.bottomUp with
  | hstep q ih =>
    by_cases hleaf : ∀ d, (q, d) ∉ t.edges
    · exact ⟨q, ⟨hq, hleaf⟩, .refl⟩
    · obtain ⟨d, hd⟩ := not_forall_not.mp hleaf
      obtain ⟨l, hl, hpath⟩ := ih d hd (mem_children hd)
      exact ⟨l, hl, hpath.head hd⟩

/-! ## Nodes below a node -/

/-- The nodes strictly below `v`: the children of `v` and of the nodes found before. -/
def below (edges : List (ℕ × ℕ)) (v : ℕ) : List ℕ :=
  edges.foldl (fun found (p, c) => if p = v ∨ p ∈ found then found ++ [c] else found) []

/-- What lies below a node, with one more edge. -/
theorem below_snoc (edges : List (ℕ × ℕ)) (p c v : ℕ) : below (edges ++ [(p, c)]) v =
    if p ∈ v :: below edges v then below edges v ++ [c] else below edges v := by
  simp [below]

section Below

variable {root v : ℕ} {edges : List (ℕ × ℕ)}

/-- **The nodes found are those that `v` leads to.** -/
theorem mem_below_iff (h : Grows root edges) {s : ℕ} :
    s ∈ below edges v ↔ Relation.TransGen (ParentOf edges) v s := by
  induction h generalizing s with
  | nil =>
    have hnone : ¬ Relation.TransGen (ParentOf []) v s := by
      intro hs
      obtain ⟨_, _, hlast⟩ := Relation.TransGen.tail'_iff.mp hs
      cases hlast
    simp [below, hnone]
  | @snoc edges p c h hp hc ih =>
    have hreach : p ∈ v :: below edges v ↔ Relation.ReflTransGen (ParentOf edges) v p := by
      rw [List.mem_cons, ih, Relation.reflTransGen_iff_eq_or_transGen]
    rw [below_snoc, h.transGen_snoc hp hc, ← ih, ← hreach]
    split
    · next hmem => simp [hmem]
    · next hmem => simp [hmem]

/-- No node is below itself. -/
theorem notMem_below_self (h : Grows root edges) (v : ℕ) : v ∉ below edges v := by
  rw [mem_below_iff h]
  induction v using h.bottomUp with
  | hstep v ih =>
    intro hcycle
    obtain ⟨d, hd, hback⟩ := Relation.TransGen.head'_iff.mp hcycle
    exact ih d hd (.tail' hback hd)

/-- What lies below a node is listed in the order of the edges. -/
theorem below_sublist (edges : List (ℕ × ℕ)) (v : ℕ) :
    (below edges v).Sublist (edges.map (·.2)) := by
  induction edges using List.reverseRecOn with
  | nil => exact .slnil
  | append_singleton edges e ih =>
    rw [below_snoc, List.map_append]
    split
    · exact ih.append (List.Sublist.refl _)
    · exact ih.trans (List.sublist_append_left _ _)

/-- A node and what lies below it are listed once each. -/
theorem nodup_cons_below (h : Grows root edges) (v : ℕ) : (v :: below edges v).Nodup :=
  List.nodup_cons.mpr ⟨notMem_below_self h v, (List.nodup_cons.mp h.nodup).2.sublist
    (below_sublist edges v)⟩

/-- Every child is below the root. -/
theorem mem_below_root (h : Grows root edges) {q : ℕ} :
    q ∈ below edges root ↔ q ∈ edges.map (·.2) := by
  refine ⟨fun hq => (below_sublist edges root).subset hq, fun hq => (mem_below_iff h).mpr ?_⟩
  have hne : q ≠ root := fun heq => (List.nodup_cons.mp h.nodup).1 (heq ▸ hq)
  exact (Relation.reflTransGen_iff_eq_or_transGen.mp
    (h.root_leads q (List.mem_cons_of_mem _ hq))).resolve_left hne

end Below

/-! ## Marked nodes -/

/-- **What marking does** to the nodes marked before: with `result`, every kept child is marked, the
parent of every marked child is, and every other mark has one of these reasons. -/
structure Marks (keep : ℕ → Bool) (edges : List (ℕ × ℕ)) (marked result : List ℕ) : Prop where
  mono : ∀ q ∈ marked, q ∈ result
  kept : ∀ e ∈ edges, keep e.2 = true → e.2 ∈ result
  parent : ∀ e ∈ edges, e.2 ∈ result → e.1 ∈ result
  reason : ∀ q ∈ result, q ∈ marked ∨ keep q = true ∨ ∃ d, (q, d) ∈ edges ∧ d ∈ result

/-- One more edge in front of the pass, when it marks its ends. -/
theorem Marks.snoc_marked {edges : List (ℕ × ℕ)} {p c : ℕ} {marked result : List ℕ}
    (h : Marks keep edges (c :: p :: marked) result)
    (hmark : keep c = true ∨ c ∈ marked) : Marks keep (edges ++ [(p, c)]) marked result where
  mono := fun q hq => h.mono q (List.mem_cons_of_mem _ (List.mem_cons_of_mem _ hq))
  kept := by
    intro e he hkeep
    rcases List.mem_append.mp he with he | he
    · exact h.kept e he hkeep
    · rw [List.mem_singleton.mp he]
      exact h.mono c List.mem_cons_self
  parent := by
    intro e he hchild
    rcases List.mem_append.mp he with he | he
    · exact h.parent e he hchild
    · rw [List.mem_singleton.mp he]
      exact h.mono p (List.mem_cons_of_mem _ List.mem_cons_self)
  reason := by
    intro q hq
    rcases h.reason q hq with hmem | hkeep | ⟨d, hd, hresult⟩
    · rcases List.mem_cons.mp hmem with rfl | hmem
      · exact hmark.symm.imp_right .inl
      · rcases List.mem_cons.mp hmem with rfl | hmem
        · exact .inr (.inr ⟨c, by simp, h.mono c List.mem_cons_self⟩)
        · exact .inl hmem
    · exact .inr (.inl hkeep)
    · exact .inr (.inr ⟨d, List.mem_append_left _ hd, hresult⟩)

/-- One more edge in front of the pass, when it marks nothing. -/
theorem Marks.snoc_unmarked {edges : List (ℕ × ℕ)} {p c : ℕ} {marked result : List ℕ}
    (h : Marks keep edges marked result) (hkeep : ¬ keep c = true) (hmarked : c ∉ marked)
    (hnew : ∀ e ∈ edges, e.1 ≠ c) : Marks keep (edges ++ [(p, c)]) marked result where
  mono := h.mono
  kept := by
    intro e he hk
    rcases List.mem_append.mp he with he | he
    · exact h.kept e he hk
    · rw [List.mem_singleton.mp he] at hk
      exact absurd hk hkeep
  parent := by
    intro e he hchild
    rcases List.mem_append.mp he with he | he
    · exact h.parent e he hchild
    · -- nothing marks the child of this edge
      rw [List.mem_singleton.mp he] at hchild
      rcases h.reason c hchild with hmem | hk | ⟨d, hd, _⟩
      · exact absurd hmem hmarked
      · exact absurd hk hkeep
      · exact absurd rfl (hnew (c, d) hd)
  reason := by
    intro q hq
    rcases h.reason q hq with hmem | hk | ⟨d, hd, hresult⟩
    · exact .inl hmem
    · exact .inr (.inl hk)
    · exact .inr (.inr ⟨d, List.mem_append_left _ hd, hresult⟩)

/-- **Marking a growing tree** from its last edge to its first. -/
theorem marks_mark {root : ℕ} {edges : List (ℕ × ℕ)} (h : Grows root edges) (marked : List ℕ) :
    Marks keep edges marked (mark keep edges.reverse marked) := by
  induction h generalizing marked with
  | nil => exact ⟨fun _ hq => hq, by simp, by simp, fun q hq => .inl hq⟩
  | @snoc edges p c h hp hc ih =>
    rw [List.reverse_append]
    change Marks keep (edges ++ [(p, c)]) marked
      (if keep c || marked.contains c then mark keep edges.reverse (c :: p :: marked)
        else mark keep edges.reverse marked)
    split
    · next hmark =>
      rw [Bool.or_eq_true, List.contains_iff_mem] at hmark
      exact (ih (c :: p :: marked)).snoc_marked hmark
    · next hmark =>
      rw [Bool.or_eq_true, List.contains_iff_mem, not_or] at hmark
      exact (ih marked).snoc_unmarked hmark.1 hmark.2 fun e he => (h.not_end hc he).1

/-- The edges kept by pruning. -/
theorem mem_edges_prune {e : ℕ × ℕ} : e ∈ (t.prune keep).edges ↔
    e ∈ t.edges ∧ e.2 ∈ mark keep t.postorder [] := by
  change e ∈ t.edges.filter (fun e => (mark keep t.postorder []).contains e.2) ↔ _
  rw [List.mem_filter, List.contains_iff_mem]

/-- **A pruned tree grows.** -/
theorem grows_prune (h : Grows t.root t.edges) (keep : ℕ → Bool) :
    Grows (t.prune keep).root (t.prune keep).edges :=
  h.filter (marks_mark h []).parent

/-- **The leaves of a pruned tree are kept nodes.** -/
theorem keep_of_leaf_prune (h : Grows t.root t.edges) {e : ℕ × ℕ}
    (he : e ∈ (t.prune keep).edges) :
    keep e.2 = true ∨ ∃ d, (e.2, d) ∈ (t.prune keep).edges := by
  obtain ⟨_, hmark⟩ := mem_edges_prune.mp he
  rcases (marks_mark h []).reason e.2 hmark with hmem | hkeep | ⟨d, hd, hresult⟩
  · cases hmem
  · exact .inl hkeep
  · exact .inr ⟨d, mem_edges_prune.mpr ⟨hd, hresult⟩⟩

/-- **What is pruned was not to be kept.** -/
theorem not_keep_of_pruned (h : Grows t.root t.edges) {e : ℕ × ℕ} (he : e ∈ t.edges)
    (hpruned : e ∉ (t.prune keep).edges) : keep e.2 = false := by
  rw [Bool.eq_false_iff]
  intro hkeep
  exact hpruned (mem_edges_prune.mpr ⟨he, (marks_mark h []).kept e he hkeep⟩)

/-- Pruning adds no node. -/
theorem mem_nodes_of_mem_prune {q : ℕ} (h : q ∈ (t.prune keep).nodes) : q ∈ t.nodes := by
  rcases List.mem_cons.mp h with rfl | h
  · exact List.mem_cons_self
  · obtain ⟨e, he, rfl⟩ := List.mem_map.mp h
    exact mem_nodes_of_mem_children (mem_children (mem_edges_prune.mp he).1)

/-! ## What is kept -/

/-- **A child is marked** exactly if a node at or below it is to be kept. -/
theorem mem_mark_iff (h : Grows t.root t.edges) {q : ℕ} (hq : q ∈ t.children) :
    q ∈ mark keep t.postorder [] ↔
      ∃ k, keep k = true ∧ Relation.ReflTransGen (ParentOf t.edges) q k := by
  have hmarks : Marks keep t.edges [] (mark keep t.postorder []) := marks_mark h []
  constructor
  · -- a mark has its reason at the node or at a marked child
    induction q using h.bottomUp with
    | hstep q ih =>
      intro hmarked
      rcases hmarks.reason q hmarked with hnone | hkeep | ⟨d, hd, hmarked⟩
      · cases hnone
      · exact ⟨q, hkeep, .refl⟩
      · obtain ⟨k, hkeep, hpath⟩ := ih d hd (mem_children hd) hmarked
        exact ⟨k, hkeep, hpath.head hd⟩
  · -- the marks climb from the kept node
    rintro ⟨k, hkeep, hpath⟩
    induction hpath using Relation.ReflTransGen.head_induction_on with
    | refl =>
      obtain ⟨e, he, rfl⟩ := List.mem_map.mp hq
      exact hmarks.kept e he hkeep
    | @head a b hab _ ih => exact hmarks.parent (a, b) hab (ih (mem_children hab))

/-- **An edge is kept** exactly if a node at or below its child is to be kept. -/
theorem mem_edges_prune_iff (h : Grows t.root t.edges) {e : ℕ × ℕ} :
    e ∈ (t.prune keep).edges ↔ e ∈ t.edges ∧
      ∃ q, keep q = true ∧ Relation.ReflTransGen (ParentOf t.edges) e.2 q := by
  rw [mem_edges_prune]
  exact and_congr_right fun he => mem_mark_iff h (mem_children he)

/-- The kept edges stand in their order. -/
theorem edges_prune_sublist (t : SteinerTree) (keep : ℕ → Bool) :
    (t.prune keep).edges.Sublist t.edges := List.filter_sublist

/-- **Nothing is pruned** if all leaves are to be kept. -/
theorem prune_eq_self (h : Grows t.root t.edges) (hleaf : ∀ q, t.IsLeaf q → keep q = true) :
    t.prune keep = t := by
  have hedges : (t.prune keep).edges = t.edges := by
    refine List.filter_eq_self.mpr fun e he => List.contains_iff_mem.mpr ?_
    obtain ⟨l, hl, hpath⟩ := exists_leaf h (mem_children he)
    exact (mem_mark_iff h (mem_children he)).mpr ⟨l, hleaf l hl, hpath⟩
  exact congrArg (SteinerTree.mk t.root) hedges

/-- **A leaf that is not to be kept goes**, so the tree gets smaller. -/
theorem length_prune_lt (h : Grows t.root t.edges) {q : ℕ} (hq : t.IsLeaf q)
    (hkeep : keep q = false) : (t.prune keep).edges.length < t.edges.length := by
  obtain ⟨hchild, hlast⟩ := hq
  obtain ⟨e, he, rfl⟩ := List.mem_map.mp hchild
  refine lt_of_le_of_ne (edges_prune_sublist t keep).length_le fun heq => ?_
  have hsame := (edges_prune_sublist t keep).eq_of_length heq
  rcases keep_of_leaf_prune h (hsame ▸ he) with hkept | ⟨d, hd⟩
  · rw [hkeep] at hkept
    cases hkept
  · exact hlast d (hsame ▸ hd)

/-- The edge lies on a way down from the root to `q`. -/
def OnWay (t : SteinerTree) (e : ℕ × ℕ) (q : ℕ) : Prop :=
  Relation.ReflTransGen (ParentOf t.edges) t.root e.1 ∧ e ∈ t.edges ∧
    Relation.ReflTransGen (ParentOf t.edges) e.2 q

/-- An edge of a growing tree is on the way to a node exactly if that is at or below its child. -/
theorem onWay_iff (h : Grows t.root t.edges) {e : ℕ × ℕ} {q : ℕ} : t.OnWay e q ↔
    e ∈ t.edges ∧ Relation.ReflTransGen (ParentOf t.edges) e.2 q :=
  ⟨fun hway => hway.2, fun hway => ⟨h.root_leads _ (h.parent_mem hway.1), hway⟩⟩

/-- What is at or below a child is a child. -/
theorem mem_children_of_leads {p q : ℕ} (hp : p ∈ t.children)
    (h : Relation.ReflTransGen (ParentOf t.edges) p q) : q ∈ t.children := by
  rcases h.cases_tail with rfl | ⟨r, _, hrq⟩
  · exact hp
  · exact mem_children hrq

/-- **Pruning a growing tree** keeps the root and, in their order, exactly the edges on the ways
from the root to the other nodes that are to be kept. What is left grows and has leaves that are to
be kept, so that pruning once more changes nothing; and it is smaller if a leaf was not to be
kept. -/
theorem prune_specification (h : Grows t.root t.edges) (keep : ℕ → Bool) :
    (t.prune keep).root = t.root ∧
    (t.prune keep).edges.Sublist t.edges ∧
    (∀ e, e ∈ (t.prune keep).edges ↔ ∃ q ∈ t.children, keep q = true ∧ t.OnWay e q) ∧
    Grows (t.prune keep).root (t.prune keep).edges ∧
    (∀ q, (t.prune keep).IsLeaf q → keep q = true) ∧
    (t.prune keep).prune keep = t.prune keep ∧
    ((∃ q, t.IsLeaf q ∧ keep q = false) →
      (t.prune keep).edges.length < t.edges.length) := by
  have hleaf : ∀ q, (t.prune keep).IsLeaf q → keep q = true := by
    rintro q ⟨hq, hlast⟩
    obtain ⟨e, he, rfl⟩ := List.mem_map.mp hq
    exact (keep_of_leaf_prune h he).resolve_right fun ⟨d, hd⟩ => hlast d hd
  refine ⟨rfl, edges_prune_sublist t keep, fun e => ?_, grows_prune h keep, hleaf,
    prune_eq_self (grows_prune h keep) hleaf, ?_⟩
  · rw [mem_edges_prune_iff h]
    constructor
    · rintro ⟨he, q, hkeep, hpath⟩
      exact ⟨q, mem_children_of_leads (mem_children he) hpath, hkeep, (onWay_iff h).mpr ⟨he, hpath⟩⟩
    · rintro ⟨q, _, hkeep, hway⟩
      exact ⟨hway.2.1, q, hkeep, hway.2.2⟩
  · rintro ⟨q, hq, hkeep⟩
    exact length_prune_lt h hq hkeep

/-- Two branches on a ring: the tip of one is cut off, the other leads to a kept leaf. -/
theorem prune_specification_ring :
    let t : SteinerTree := ⟨0, [(0, 1), (1, 2), (0, 5), (5, 4)]⟩
    let keep : ℕ → Bool := fun q => q == 1 || q == 4
    (CouplingGraph.ring 6).steinerTree 0 [2, 4] (List.range 6) = .ok t ∧
      (t.prune keep).edges = [(0, 1), (0, 5), (5, 4)] ∧
      (∃ q ∈ t.children, keep q = true ∧ t.OnWay (0, 5) q) ∧
      (¬ ∃ q ∈ t.children, keep q = true ∧ t.OnWay (1, 2) q) ∧
      (t.prune keep).prune keep = t.prune keep ∧
      (t.prune keep).edges.length < t.edges.length := by
  intro t keep
  have htree : (CouplingGraph.ring 6).steinerTree 0 [2, 4] (List.range 6) = .ok t := by decide
  have hgrows : Grows t.root t.edges := (CouplingGraph.steinerTree_ok htree).1.grows
  obtain ⟨_, _, hedges, _, _, htwice, hsmaller⟩ := prune_specification hgrows keep
  have hleaf : t.IsLeaf 2 := ⟨by decide, by simp [t]⟩
  refine ⟨htree, by decide, (hedges (0, 5)).mp (by decide), ?_, htwice, hsmaller ⟨2, hleaf, rfl⟩⟩
  rw [← hedges]
  decide

end SteinerTree

end CnotSynthesis
