import CnotSynthesis.Elimination.Steiner
import CnotSynthesis.Proofs.Elimination.Coupled
import CnotSynthesis.Proofs.Elimination.TreePasses
import CnotSynthesis.Proofs.Graph.ShortestPaths

/-! # Clearing a column along a tree

* **`Reduction.detours_spec`** — on a connected graph there is a way from the pivot to every
  terminal, through the earlier rows or along a detour.
* **`Reduction.clearBelow_yields`** — the pivot row becomes the only usable one with a one in the
  column.
* **`Reduction.clearAbove_yields`** — the pivot row is added into exactly the rows that hold a one,
  whatever other rows the tree passes through. -/

namespace CnotSynthesis

open Work

namespace Reduction

variable {G : CouplingGraph} {F : Prop} {w : Work}

/-! ## Ways through the graph -/

/-- **Detours** exist on a connected graph, and with them every terminal can be reached. -/
theorem detours_spec (h : G.isConnected = true) {root : ℕ} (hroot : root < G.size)
    (earlier : List ℕ) {terminals : List ℕ} (hterminals : ∀ q ∈ terminals, q < G.size) :
    ∃ extra, detours G root earlier terminals = .ok extra ∧ (∀ q ∈ extra, q < G.size) ∧
      ∀ q ∈ terminals,
        Relation.ReflTransGen (G.LeadsInto {q | q ∈ earlier ++ extra}) root q := by
  induction terminals with
  | nil => exact ⟨[], rfl, by simp, by simp⟩
  | cons t rest ih =>
    obtain ⟨extra, hextra, hlt, hreach⟩ := ih fun q hq => hterminals q (List.mem_cons_of_mem _ hq)
    unfold detours
    have ht := hterminals t List.mem_cons_self
    rcases CouplingGraph.shortestPathThrough_cases earlier hroot ht with
      ⟨path, hthrough, p, _, _, hinside, _⟩ | ⟨hnone, _⟩
    · refine ⟨extra, ?_, hlt, ?_⟩
      · rw [hthrough]
        exact hextra
      · intro q hq
        rcases List.mem_cons.mp hq with rfl | hq
        · refine CouplingGraph.reflTransGen_of_inside p ?_
          exact fun q hq => List.mem_append_left _ (hinside q hq)
        · exact hreach q hq
    · obtain ⟨p, _, _, hpath⟩ := CouplingGraph.exists_shortestPath_eq h hroot ht
      refine ⟨p.support ++ extra, ?_, ?_, ?_⟩
      · rw [hnone, hpath, hextra]
        rfl
      · intro q hq
        rcases List.mem_append.mp hq with hq | hq
        · exact CouplingGraph.lt_of_mem_support p hroot q hq
        · exact hlt q hq
      · intro q hq
        rcases List.mem_cons.mp hq with rfl | hq
        · refine CouplingGraph.reflTransGen_of_inside p ?_
          exact fun q hq => List.mem_append_right _ (List.mem_append_left _ hq)
        · -- more qubits do not close a way
          refine Relation.ReflTransGen.mono ?_ _ _ (hreach q hq)
          rintro x y ⟨hy, hedge⟩
          refine ⟨?_, hedge⟩
          rcases List.mem_append.mp hy with hy | hy
          · exact List.mem_append_left _ hy
          · exact List.mem_append_right _ (List.mem_append_right _ hy)

/-- The tree above a pivot exists on a connected graph. -/
theorem treeAbove_exists (h : G.isConnected = true) {root : ℕ} {terminals earlier : List ℕ}
    (hlt : ∀ q ∈ earlier, q < G.size) (hroot : root ∈ earlier)
    (hterminals : ∀ q ∈ terminals, q ∈ earlier) :
    ∃ t, treeAbove G root terminals earlier = .ok t := by
  obtain ⟨extra, hextra, hextralt, hreach⟩ := detours_spec h (hlt root hroot) earlier
    fun q hq => hlt q (hterminals q hq)
  have halllt : ∀ q ∈ earlier ++ extra, q < G.size := by
    intro q hq
    rcases List.mem_append.mp hq with hq | hq
    · exact hlt q hq
    · exact hextralt q hq
  obtain ⟨t, ht⟩ := CouplingGraph.steinerTreeWith_exists halllt (List.mem_append_left _ hroot)
    (fun q hq => List.mem_append_left _ (hterminals q hq)) hreach
  refine ⟨t, ?_⟩
  unfold treeAbove
  rw [hextra]
  exact ht

/-! ## Below a pivot -/

/-- The terminals are the pivot and the rows with a one. -/
theorem mem_terminalsAt {M : ParityMatrix} {column pivot r : ℕ} {rows : List ℕ} :
    r ∈ terminalsAt M column pivot rows ↔ r ∈ rows ∧ (r = pivot ∨ M.entry r column = true) := by
  unfold terminalsAt
  rw [List.mem_filter, Bool.or_eq_true, beq_iff_eq]

/-- The pivot alone is a terminal: no other row holds a one. -/
theorem entry_eq_false_of_length_terminalsAt {M : ParityMatrix} {column pivot : ℕ} {rows : List ℕ}
    (hpivot : pivot ∈ rows) (h : (terminalsAt M column pivot rows).length = 1) {r : ℕ}
    (hr : r ∈ rows) (hne : r ≠ pivot) : M.entry r column = false := by
  obtain ⟨a, ha⟩ := List.length_eq_one_iff.mp h
  have hmem : pivot ∈ terminalsAt M column pivot rows := mem_terminalsAt.mpr ⟨hpivot, .inl rfl⟩
  rw [ha, List.mem_singleton] at hmem
  by_contra hone
  have hr : r ∈ terminalsAt M column pivot rows :=
    mem_terminalsAt.mpr ⟨hr, .inr (Bool.not_eq_false _ ▸ hone)⟩
  rw [ha, List.mem_singleton] at hr
  exact hne (hr.trans hmem.symm)

/-- A row addition between coupled rows of `rows`. -/
def CoupledIn (G : CouplingGraph) (rows : List ℕ) (target source : ℕ) : Prop :=
  target ∈ rows ∧ source ∈ rows ∧ G.Coupled target source

/-- An edge of a spanning tree is a coupling of allowed qubits. -/
theorem coupledIn_of_along {allowed terminals : List ℕ} {t : SteinerTree}
    (h : SteinerTree.Spans G allowed terminals t) {a b : ℕ} (hab : t.Along a b) :
    CoupledIn G allowed a b := by
  obtain ⟨ha, hb⟩ := hab.mem_nodes h.grows
  refine ⟨h.allowed a ha, h.allowed b hb, ?_⟩
  rcases hab with hab | hab
  · exact h.coupled _ hab
  · exact (G.hasEdge_comm a b).trans (h.coupled _ hab)

/-- The terminals for a column: the root and the rows of `usable` that hold a one. -/
def Terminals (M : ParityMatrix) (column root : ℕ) (usable terminals : List ℕ) : Prop :=
  ∀ r, r ∈ terminals ↔ r ∈ usable ∧ (r = root ∨ M.entry r column = true)

/-- Every leaf of the tree to the ones of a column holds a one. -/
theorem leaf_of_spans {M : ParityMatrix} {column root : ℕ} {usable terminals : List ℕ}
    {t : SteinerTree} (hterm : Terminals M column root usable terminals)
    (h : SteinerTree.Spans G usable terminals t) (hroot : t.root = root)
    (hone : ∃ r ∈ usable, M.entry r column = true) :
    ∀ q ∈ t.nodes, M.entry q column = true ∨ ∃ d, (q, d) ∈ t.edges := by
  intro q hq
  rcases List.mem_cons.mp hq with rfl | hq
  · by_cases hedges : t.edges = []
    · -- the root is the only node, and one of the nodes holds a one
      obtain ⟨r, hr, hone⟩ := hone
      have hnode := h.terminal r ((hterm r).mpr ⟨hr, .inr hone⟩)
      rw [SteinerTree.nodes, hedges, List.map_nil, List.mem_singleton] at hnode
      exact .inl (hnode ▸ hone)
    · exact .inr (h.grows.exists_root_edge hedges)
  · obtain ⟨e, he, rfl⟩ := List.mem_map.mp hq
    rcases h.leaf e he with hleaf | hleaf
    · rcases ((hterm e.2).mp hleaf).2 with heq | hone
      · exact absurd (heq.trans hroot.symm) (h.grows.child_ne_root he)
      · exact .inl hone
    · exact .inr hleaf

/-- **Gathering the ones of a column** along a tree to all of them: the root row becomes the only
usable one with a one in the column. -/
theorem lower_spans_yields {column root : ℕ} {usable terminals : List ℕ} {t : SteinerTree}
    (hterm : Terminals w.matrix column root usable terminals)
    (h : SteinerTree.Spans G usable terminals t) (hroot : t.root = root)
    (hlt : ∀ q ∈ usable, q < w.matrix.rows)
    (hone : ∃ r ∈ usable, w.matrix.entry r column = true) :
    Yields F (lower t column) w fun _ w' => Steps (CoupledIn G usable) w w' ∧
      w'.matrix.entry root column = true ∧
      ∀ r ∈ usable, r ≠ root → w'.matrix.entry r column = false := by
  have hnodes : ∀ q ∈ t.nodes, q < w.matrix.rows := fun q hq => hlt q (h.allowed q hq)
  refine (lower_yields h.grows hnodes (leaf_of_spans hterm h hroot hone)).mono ?_
  rintro _ w' ⟨hsteps, hrootOne, hchildren⟩
  refine ⟨hsteps.mono fun a b => coupledIn_of_along h, hroot ▸ hrootOne, ?_⟩
  intro r hr hne
  by_cases hchild : r ∈ t.children
  · exact hchildren r hchild
  · -- outside the tree nothing changed, and there was no one
    have hnode : r ∉ t.nodes := by
      intro hmem
      rcases List.mem_cons.mp hmem with heq | hmem
      · exact hne (heq.trans hroot)
      · exact hchild hmem
    have hzero : w.matrix.entry r column = false := by
      rw [Bool.eq_false_iff]
      exact fun hentry => hnode (h.terminal r ((hterm r).mpr ⟨hr, .inr hentry⟩))
    rw [← hzero]
    exact hsteps.entry_eq_of_notMem (S := {q | q ∈ t.nodes})
      (fun a b hab => (hab.mem_nodes h.grows).1) hnode column

/-- **Clearing below a pivot** succeeds on connected rows one of which holds a one. -/
theorem clearBelow_yields {column pivot : ℕ} {usable : List ℕ} (hpivot : pivot ∈ usable)
    (hlt : ∀ q ∈ usable, q < G.size) (hsize : G.size = w.matrix.rows)
    (hone : ∃ r ∈ usable, w.matrix.entry r column = true)
    (hF : ¬ G.ConnectedOn {q | q ∈ usable} → F) :
    Yields F (clearBelow G column pivot (terminalsAt w.matrix column pivot usable) usable) w
      fun _ w' => Steps (CoupledIn G usable) w w' ∧ w'.matrix.entry pivot column = true ∧
        ∀ r ∈ usable, r ≠ pivot → w'.matrix.entry r column = false := by
  have hterm : Terminals w.matrix column pivot usable (terminalsAt w.matrix column pivot usable) :=
    fun r => mem_terminalsAt
  refine yields_attempt_bind ?_ ?_
  · intro e he
    refine hF fun hconnected => ?_
    obtain ⟨t, ht⟩ := CouplingGraph.steinerTree_exists hlt hpivot (fun q hq => ((hterm q).mp hq).1)
      hconnected
    rw [ht] at he
    cases he
  · intro t ht
    obtain ⟨hspans, hroot, _⟩ := CouplingGraph.steinerTree_ok ht
    refine (lower_spans_yields hterm hspans hroot (fun q hq => hsize ▸ hlt q hq) hone).bind ?_
    rintro _ w₁ ⟨hsteps, hcolumn⟩
    exact yields_of_exec (exec_report _ w₁) ⟨hsteps.trans (steps_note rfl w₁), hcolumn⟩

/-! ## Above a pivot -/

/-- What fanning out does to an entry. -/
theorem FannedOut.entry_eq {t : SteinerTree} {column : ℕ} {M N : ParityMatrix}
    (h : FannedOut t column M N) (r j : ℕ) :
    N.entry r j = if r ∈ t.children ∧ M.entry r column = true
      then (M.entry r j != M.entry t.root j) else M.entry r j := by
  have hrow := congrFun (h r) j
  refine bitValue_injective ?_
  rw [ParityMatrix.row_apply] at hrow
  rw [hrow]
  split
  · rw [bitValue_bne]
    rfl
  · rfl

/-- **Clearing above a pivot** succeeds on a connected graph. -/
theorem clearAbove_yields {column pivot : ℕ} {earlier : List ℕ} (hpivot : pivot ∈ earlier)
    (hlt : ∀ q ∈ earlier, q < G.size) (hsize : G.size = w.matrix.rows)
    (hone : w.matrix.entry pivot column = true)
    (hother : ∀ r, r ∉ earlier → w.matrix.entry r column = false)
    (hconnected : G.isConnected = true) :
    Yields F (clearAbove G column pivot earlier) w fun _ w' => Steps G.Coupled w w' ∧
      ∀ r j, w'.matrix.entry r j = if r ≠ pivot ∧ w.matrix.entry r column = true
        then (w.matrix.entry r j != w.matrix.entry pivot j) else w.matrix.entry r j := by
  refine yields_matrix_bind ?_
  dsimp only
  split
  · next hlength =>
    refine yields_pure ⟨Steps.refl w, fun r j => (if_neg ?_).symm⟩
    rintro ⟨hne, hentry⟩
    by_cases hr : r ∈ earlier
    · rw [entry_eq_false_of_length_terminalsAt hpivot hlength hr hne] at hentry
      cases hentry
    · rw [hother r hr] at hentry
      cases hentry
  · refine yields_attempt_bind ?_ ?_
    · intro e he
      have hterminals : ∀ q ∈ terminalsAt w.matrix column pivot earlier, q ∈ earlier := fun q hq =>
        (mem_terminalsAt.mp hq).1
      obtain ⟨t, ht⟩ := treeAbove_exists hconnected hlt hpivot hterminals
      rw [ht] at he
      cases he
    · intro t ht
      obtain ⟨extra, _, ht⟩ := treeAbove_ok ht
      obtain ⟨hspans, hroot, hallowed⟩ := CouplingGraph.steinerTreeWith_ok ht
      have hnodes : ∀ q ∈ t.nodes, q < w.matrix.rows := fun q hq =>
        hsize ▸ hallowed q (hspans.allowed q hq)
      refine (upper_yields hspans.grows hnodes (by rwa [hroot])).mono ?_
      rintro _ w' ⟨hsteps, hfan⟩
      refine ⟨hsteps.mono fun a b hab => (coupledIn_of_along hspans hab).2.2, fun r j => ?_⟩
      rw [hfan.entry_eq, hroot]
      -- the children with a one are the other rows with a one
      refine if_congr (and_congr_left fun hentry => ⟨?_, ?_⟩) rfl rfl
      · rintro hchild rfl
        exact SteinerTree.root_notMem_children hspans.grows (hroot ▸ hchild)
      · intro hne
        have hr : r ∈ earlier := by
          by_contra hr
          rw [hother r hr] at hentry
          cases hentry
        have hnode := hspans.terminal r (mem_terminalsAt.mpr ⟨hr, .inr hentry⟩)
        rcases List.mem_cons.mp hnode with heq | hnode
        · exact absurd (heq.trans hroot) hne
        · exact hnode

end Reduction

end CnotSynthesis
