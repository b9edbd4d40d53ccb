import CnotSynthesis.Proofs.Elimination.Clearing
import CnotSynthesis.Proofs.Elimination.Recording

/-! # Eliminations along a tree as runs

What an elimination along a growing tree leaves behind, in a matrix with a row for every node and
in a circuit with a wire for every node.

* **`Reduction.record_along`** — a circuit with a wire for every node takes all its row additions.
* **`Reduction.RunsBy`** — one list of row additions of a given kind says what became of the matrix
  and of the circuit.
* **`Reduction.upper_exact`** — on a Steiner tree, the root row goes into exactly the nodes that
  hold a one.
* **`Reduction.lower_exact`** — the root keeps the only one of the column, at a cost that is known.
* **`Reduction.collect_exact`** — every node takes the selected rows below it. -/

namespace CnotSynthesis

open ParityMatrix Work SteinerTree

variable {t : SteinerTree} {M : ParityMatrix} {c? : Option Circuit} {column : ℕ}

/-- The child of an edge is new, so it is not its parent. -/
theorem Grows.parent_ne_child {root : ℕ} {edges : List (ℕ × ℕ)} (h : Grows root edges) {e : ℕ × ℕ}
    (he : e ∈ edges) : e.1 ≠ e.2 := by
  induction h with
  | nil => cases he
  | @snoc edges p c _ hp hc ih =>
    rcases List.mem_append.mp he with he | he
    · exact ih he
    · rw [List.mem_singleton.mp he]
      show p ≠ c
      exact fun heq => hc (heq ▸ hp)

namespace SteinerTree

/-- An edge of a tree joins two different nodes. -/
theorem Along.ne {target source : ℕ} (hop : t.Along target source) (h : Grows t.root t.edges) :
    target ≠ source := by
  rcases hop with hop | hop
  · exact h.parent_ne_child hop
  · exact (h.parent_ne_child hop).symm

/-- A row addition along an edge is one between two different nodes. -/
theorem Along.isProper {n : ℕ} {op : RowAddition} (hop : t.Along op.target op.source)
    (h : Grows t.root t.edges) (hlt : ∀ q ∈ t.nodes, q < n) : op.IsProper n := by
  obtain ⟨htarget, hsource⟩ := hop.mem_nodes h
  exact ⟨hlt _ htarget, hlt _ hsource, hop.ne h⟩

end SteinerTree

namespace Reduction

/-- **Recording row additions along a tree** in a circuit with a wire for every node. -/
theorem record_along {α : Type} {r : Reduction α} (hr : Proceeds t.Along r)
    (h : Grows t.root t.edges) (hc : ∀ c ∈ c?, ∀ q ∈ t.nodes, q < c.qubits) :
    r.record true M c? = ⟨(r.plan M).work.matrix,
      c?.map (·.prepend (rowAdditions (r.plan M).work.events)), (r.plan M).work.events,
      (r.plan M).outcome.mapError .refused⟩ := by
  rw [record_eq, Run.heard_true]
  refine Plan.record_of_accepted _ M (transcribe_recordIn_of_isProper ?_)
  intro c hmem op hop
  exact ((hr.exists_addRows M).1 op hop).isProper h (hc c hmem)

/-- **A run by row additions of one kind**: one list of them says what became of the matrix and of
the circuit. -/
structure RunsBy {α : Type} (E : ℕ → ℕ → Prop) (M : ParityMatrix) (c? : Option Circuit)
    (run : Run α) : Prop where
  kind : ∀ op ∈ rowAdditions run.events, E op.target op.source
  matrix_eq : run.matrix = M.addRows (rowAdditions run.events)
  circuit_eq : run.circuit = c?.map (·.prepend (rowAdditions run.events))

/-- A reduction along a tree, recorded in a circuit with a wire for every node, is its plan. -/
theorem runsBy_record {α : Type} {E : ℕ → ℕ → Prop} {r : Reduction α} (hr : Proceeds E r)
    (hE : ∀ a b, E a b → t.Along a b) (h : Grows t.root t.edges)
    (hc : ∀ c ∈ c?, ∀ q ∈ t.nodes, q < c.qubits) :
    let run := r.record true M c?
    RunsBy E M c? run ∧ run.outcome = (r.plan M).outcome.mapError .refused ∧
      run.matrix = (r.plan M).work.matrix ∧ run.events = (r.plan M).work.events := by
  intro run
  have hrun : run = _ := record_along (fun w => (hr w).mono hE) h hc
  obtain ⟨hops, hmatrix⟩ := hr.exists_addRows M
  rw [hrun]
  exact ⟨⟨hops, hmatrix, rfl⟩, rfl, rfl, rfl⟩

namespace RunsBy

variable {α : Type} {E : ℕ → ℕ → Prop} {run : Run α}

/-- Rows outside the tree stay as they are. -/
theorem entry_outside (hrun : RunsBy E M c? run) (hE : ∀ a b, E a b → a ∈ t.nodes) (q : ℕ)
    (hq : q ∉ t.nodes) (j : ℕ) : run.matrix.entry q j = M.entry q j := by
  rw [hrun.matrix_eq]
  refine entry_addRows_of_notMem ?_ j
  rintro op hop rfl
  exact hq (hE _ _ (hrun.kind op hop))

/-- Row additions within a set of rows keep what they span. -/
theorem spanOn_eq (hrun : RunsBy E M c? run) (hne : ∀ a b, E a b → a ≠ b) {S : Set ℕ}
    (hS : ∀ a b, E a b → a ∈ S → b ∈ S) : run.matrix.spanOn S = M.spanOn S := by
  rw [hrun.matrix_eq]
  exact spanOn_addRows (fun op hop => hne _ _ (hrun.kind op hop))
    fun op hop => hS _ _ (hrun.kind op hop)

end RunsBy

/-- A root that holds a zero is refused before anything is done. -/
theorem exec_upper_of_clear {w : Work} (hroot : w.matrix.entry t.root column = false) :
    (upper t column).exec w = (.error (.structural (.rootClearBeforeUpper t.root column)), w) := by
  unfold upper
  rw [Script.exec_bind, exec_matrix]
  dsimp only
  rw [hroot]
  rfl

/-- **Upper elimination is exact.** On a Steiner tree whose root holds a one of the column, it
succeeds and adds the root row to exactly the other nodes that hold a one; a root that holds a zero
is refused and nothing is changed. -/
theorem upper_exact {G : CouplingGraph} {root : ℕ} {terminals usable extra : List ℕ}
    (htree : G.steinerTreeWith root terminals usable extra = .ok t)
    (hM : ∀ q ∈ t.nodes, q < M.rows) (hc : ∀ c ∈ c?, ∀ q ∈ t.nodes, q < c.qubits) (column : ℕ) :
    let run := (upper t column).record true M c?
    (M.entry root column = true →
      run.outcome = .ok () ∧ run.matrix.rows = M.rows ∧ run.matrix.cols = M.cols ∧
      (∀ q j, run.matrix.entry q j =
        if q ∈ t.nodes ∧ q ≠ root ∧ M.entry q column = true
        then (M.entry q j ^^ M.entry root j) else M.entry q j) ∧
      run.circuit = c?.map (·.prepend (rowAdditions run.events))) ∧
    (M.entry root column = false →
      run.outcome = .error (.refused (.structural (.rootClearBeforeUpper root column))) ∧
      run.matrix = M ∧ run.circuit = c? ∧ run.events = []) := by
  obtain ⟨hspans, rfl, _⟩ := CouplingGraph.steinerTreeWith_ok htree
  intro run
  have hrun : run = _ := record_along (proceeds_upper t column) hspans.grows hc
  rw [hrun, plan_eq]
  constructor
  · intro hroot
    obtain ⟨_, w, hexec, hsteps, hfan⟩ := Yields.exec_eq
      (upper_yields hspans.grows (w := Work.start M) hM hroot)
    rw [hexec]
    refine ⟨rfl, hsteps.rows_eq, hsteps.cols_eq, ?_, rfl⟩
    intro q j
    -- the children are the nodes other than the root
    have hchild : q ∈ t.children ↔ q ∈ t.nodes ∧ q ≠ t.root := by
      have hroot := root_notMem_children hspans.grows
      constructor
      · exact fun hq => ⟨mem_nodes_of_mem_children hq, fun heq => hroot (heq ▸ hq)⟩
      · exact fun hq => (List.mem_cons.mp hq.1).resolve_left hq.2
    refine (hfan.entry_eq q j).trans ?_
    simp only [hchild, and_assoc]
    rfl
  · intro hroot
    rw [exec_upper_of_clear (w := Work.start M) hroot]
    refine ⟨rfl, rfl, ?_, rfl⟩
    cases c? <;> rfl

/-- On a line, from qubit 0 across qubit 1 to qubit 2: the node between them is left alone. In a
column in which qubit 0 holds a zero nothing happens. -/
theorem upper_exact_line :
    let t : SteinerTree := ⟨0, [(0, 1), (1, 2)]⟩
    let M := ((identity 4).addRow 2 0).addRow 2 3
    let run column := (upper t column).record true M (some (Circuit.empty 4))
    (CouplingGraph.line 4).steinerTreeWith 0 [2] [0, 2] [1] = .ok t ∧
      M.entry 0 0 = true ∧ (run 0).outcome = .ok () ∧ (∀ j, (run 0).matrix.entry 2 j =
        (M.entry 2 j ^^ M.entry 0 j)) ∧ (∀ j, (run 0).matrix.entry 1 j = M.entry 1 j) ∧
      M.entry 0 3 = false ∧ (run 3).matrix = M ∧ (run 3).events = [] := by
  intro t M run
  have htree : (CouplingGraph.line 4).steinerTreeWith 0 [2] [0, 2] [1] = .ok t := by decide
  have hrows : ∀ q ∈ t.nodes, q < M.rows := by decide
  have hc : ∀ c ∈ some (Circuit.empty 4), ∀ q ∈ t.nodes, q < c.qubits := by
    rintro _ ⟨⟩
    exact hrows
  obtain ⟨houtcome, _, _, hentry, _⟩ := (upper_exact htree hrows hc 0).1 (by decide)
  obtain ⟨_, hmatrix, _, hevents⟩ := (upper_exact htree hrows hc 3).2 (by decide)
  refine ⟨htree, by decide, houtcome, fun j => ?_, fun j => ?_, by decide, hmatrix, hevents⟩
  · exact (hentry 2 j).trans (if_pos (by decide))
  · exact (hentry 1 j).trans (if_neg (by decide))

/-! ## Gathering a one -/

/-- Every node of a tree whose leaves hold a one has a one or a child. -/
theorem one_or_child (h : Grows t.root t.edges) (hleaf : ∀ q, t.IsLeaf q → M.entry q column = true)
    (hbare : t.edges = [] → M.entry t.root column = true) :
    ∀ q ∈ t.nodes, M.entry q column = true ∨ ∃ d, (q, d) ∈ t.edges := by
  intro q hq
  by_cases hlast : ∃ d, (q, d) ∈ t.edges
  · exact .inr hlast
  · refine .inl ?_
    rcases List.mem_cons.mp hq with rfl | hchild
    · refine hbare ?_
      by_contra hne
      exact hlast (h.exists_root_edge hne)
    · exact hleaf q ⟨hchild, not_exists.mp hlast⟩

/-- Some node of such a tree holds a one. -/
theorem exists_one (h : Grows t.root t.edges) (hleaf : ∀ q, t.IsLeaf q → M.entry q column = true)
    (hbare : t.edges = [] → M.entry t.root column = true) :
    ∃ q ∈ t.nodes, M.entry q column = true := by
  by_cases hne : t.edges = []
  · exact ⟨t.root, List.mem_cons_self, hbare hne⟩
  · obtain ⟨e, he⟩ := List.exists_mem_of_ne_nil _ hne
    obtain ⟨l, hl, _⟩ := exists_leaf h (mem_children he)
    exact ⟨l, mem_nodes_of_mem_children hl.1, hleaf l hl⟩

/-- **Lower elimination is exact.** On a growing tree whose leaves hold a one of the column, and so
does a root that stands alone, it succeeds and leaves a one at the root and zeros at the other
nodes. Rows outside the tree stay as they are, and the rows of the tree span what they spanned. It
makes one row addition for every edge and one for every zero at a node, so at most two for every
edge, all along edges. -/
theorem lower_exact (h : Grows t.root t.edges) (hM : ∀ q ∈ t.nodes, q < M.rows)
    (hc : ∀ c ∈ c?, ∀ q ∈ t.nodes, q < c.qubits)
    (hleaf : ∀ q, t.IsLeaf q → M.entry q column = true)
    (hbare : t.edges = [] → M.entry t.root column = true) :
    let run := (lower t column).record true M c?
    let ops := rowAdditions run.events
    run.outcome = .ok () ∧
      run.matrix.entry t.root column = true ∧
      (∀ q ∈ t.nodes, q ≠ t.root → run.matrix.entry q column = false) ∧
      (∀ q, q ∉ t.nodes → ∀ j, run.matrix.entry q j = M.entry q j) ∧
      run.matrix.spanOn {q | q ∈ t.nodes} = M.spanOn {q | q ∈ t.nodes} ∧
      (∀ op ∈ ops, t.Along op.target op.source) ∧
      ops.length = t.edges.length + t.nodes.countP (fun q => !M.entry q column) ∧
      t.edges.length ≤ ops.length ∧ ops.length ≤ 2 * t.edges.length ∧
      run.matrix = M.addRows ops ∧ run.circuit = c?.map (·.prepend ops) := by
  intro run ops
  have hnodes := one_or_child h hleaf hbare
  obtain ⟨hops, houtcome, hmatrix, hevents⟩ := runsBy_record (M := M) (proceeds_lower t column)
    (fun _ _ hab => hab) h hc
  obtain ⟨_, w, hexec, _, hroot, hchildren⟩ := Yields.exec_eq
    (lower_yields h (w := Work.start M) hM hnodes)
  have hplan : (lower t column).plan M = ⟨w, .ok ()⟩ := by rw [plan_eq, hexec]
  have hfinal : run.matrix = w.matrix := by rw [hmatrix, hplan]
  have hlength : ops.length = t.edges.length + t.nodes.countP (fun q => !M.entry q column) :=
    (congrArg (fun events => (rowAdditions events).length) hevents).trans
      (length_lower h hM hnodes)
  refine ⟨by rw [houtcome, hplan]; rfl, hfinal ▸ hroot, fun q hq hne => ?_,
    hops.entry_outside fun _ _ hab => (hab.mem_nodes h).1, ?_, hops.kind, hlength, by omega, ?_,
    hops.matrix_eq, hops.circuit_eq⟩
  · exact hfinal ▸ hchildren q ((List.mem_cons.mp hq).resolve_left hne)
  · exact hops.spanOn_eq (fun _ _ hab => hab.ne h) fun _ _ hab _ => (hab.mem_nodes h).2
  · -- some node holds a one, so there are at most as many zeros as edges
    obtain ⟨q, hq, hone⟩ := exists_one h hleaf hbare
    have hzeros : t.nodes.countP (fun q => !M.entry q column) < t.nodes.length :=
      List.countP_lt_length_iff.mpr ⟨q, hq, by simp [hone]⟩
    have hcount : t.nodes.length = t.edges.length + 1 := by simp [nodes]
    omega

/-- Two branches on a ring with ones at their tips: the three zeros on the way cost an addition
each. -/
theorem lower_exact_ring :
    let t : SteinerTree := ⟨0, [(0, 1), (1, 2), (0, 5), (5, 4)]⟩
    let M := (identity 6).addRow 4 2
    let run := (lower t 2).record true M (some (Circuit.empty 6))
    (CouplingGraph.ring 6).steinerTree 0 [2, 4] (List.range 6) = .ok t ∧
      (∀ q ∈ [0, 1, 5], M.entry q 2 = false) ∧ run.outcome = .ok () ∧
      run.matrix.entry 0 2 = true ∧ (∀ q ∈ [1, 2, 5, 4], run.matrix.entry q 2 = false) ∧
      run.matrix.spanOn {q | q ∈ t.nodes} = M.spanOn {q | q ∈ t.nodes} ∧
      (rowAdditions run.events).length = 7 := by
  intro t M run
  have htree : (CouplingGraph.ring 6).steinerTree 0 [2, 4] (List.range 6) = .ok t := by decide
  have hgrows : Grows t.root t.edges := (CouplingGraph.steinerTree_ok htree).1.grows
  have hnodes : ∀ q ∈ t.nodes, q < 6 := by decide
  have hleaf : ∀ q, t.IsLeaf q → M.entry q 2 = true := by
    rintro q ⟨hq, hlast⟩
    -- the first nodes of the branches have children
    have hq : q = 1 ∨ q = 2 ∨ q = 5 ∨ q = 4 := by simpa [t, children] using hq
    rcases hq with rfl | rfl | rfl | rfl
    · exact absurd (by decide) (hlast 2)
    · decide
    · exact absurd (by decide) (hlast 4)
    · decide
  have hc : ∀ c ∈ some (Circuit.empty 6), ∀ q ∈ t.nodes, q < c.qubits := by
    rintro _ ⟨⟩
    exact hnodes
  obtain ⟨houtcome, hroot, hothers, _, hspan, _, hlength, _⟩ :=
    lower_exact hgrows hnodes hc hleaf (by decide)
  refine ⟨htree, by decide, houtcome, hroot, fun q hq => ?_, hspan, hlength.trans (by decide)⟩
  have hnode : q ∈ t.nodes ∧ q ≠ t.root := by
    revert q
    decide
  exact hothers q hnode.1 hnode.2

/-! ## Collecting rows -/

/-- **Collecting is exact.** On a growing tree, for selected nodes other than the root, the root row
becomes its sum with all selected rows, and the row of every other node its sum with the selected
rows strictly below it. Other rows stay as they are. Rows are added along edges only, and from a
child into its parent, so the rows of the nodes other than the root span what they spanned. -/
theorem collect_exact (h : Grows t.root t.edges) (hM : ∀ q ∈ t.nodes, q < M.rows)
    (hc : ∀ c ∈ c?, ∀ q ∈ t.nodes, q < c.qubits) {selected : List ℕ} (hnodup : selected.Nodup)
    (hsub : ∀ q ∈ selected, q ∈ t.nodes ∧ q ≠ t.root) :
    let run := (collect t selected).record true M c?
    let ops := rowAdditions run.events
    run.outcome = .ok () ∧
      run.matrix.row t.root = M.row t.root + (selected.map M.row).sum ∧
      (∀ v ∈ t.nodes, v ≠ t.root → ∃ under : List ℕ, under.Nodup ∧
        (∀ s, s ∈ under ↔ s ∈ selected ∧ Relation.TransGen (ParentOf t.edges) v s) ∧
        run.matrix.row v = M.row v + (under.map M.row).sum) ∧
      (∀ q, q ∉ t.nodes → ∀ j, run.matrix.entry q j = M.entry q j) ∧
      (∀ op ∈ ops, t.Along op.target op.source) ∧
      run.matrix.spanOn {q | q ∈ t.nodes ∧ q ≠ t.root} = M.spanOn {q | q ∈ t.nodes ∧ q ≠ t.root} ∧
      run.matrix = M.addRows ops ∧ run.circuit = c?.map (·.prepend ops) := by
  intro run ops
  have hproceeds : Proceeds t.Upward (collect t selected) :=
    proceeds_of_exec (exec_collect t · selected) fun w => steps_collect w t selected
  obtain ⟨hops, houtcome, hmatrix, _⟩ := runsBy_record (M := M) hproceeds (fun _ _ => .inl) h hc
  have hplan : (collect t selected).plan M = ⟨(Work.start M).collect t selected, .ok ()⟩ := by
    rw [plan_eq, exec_collect]
  have hfinal : run.matrix = ((Work.start M).collect t selected).matrix := by rw [hmatrix, hplan]
  rw [hplan] at houtcome
  have hchildren : ∀ q ∈ selected, q ∈ t.children := fun q hq =>
    (List.mem_cons.mp (hsub q hq).1).resolve_left (hsub q hq).2
  have hup : ∀ a b, t.Upward a b → t.Along a b := fun _ _ => .inl
  refine ⟨houtcome, ?_, fun v _ _ => ?_,
    hops.entry_outside fun a b hab => ((hup a b hab).mem_nodes h).1,
    fun op hop => .inl (hops.kind op hop), ?_, hops.matrix_eq, hops.circuit_eq⟩
  · rw [hfinal]
    exact row_collect_root h (Work.start M) hM hnodup hchildren
  · refine ⟨selected.filter (below t.edges v).contains, hnodup.filter _, fun s => ?_, ?_⟩
    · rw [List.mem_filter, List.contains_iff_mem, mem_below_iff h]
    · rw [hfinal]
      exact row_collect h (Work.start M) hM hnodup v
  · -- the source of an addition is a child
    refine hops.spanOn_eq (fun a b hab => (hup a b hab).ne h) fun a b hab _ => ?_
    exact ⟨((hup a b hab).mem_nodes h).2, h.child_ne_root hab⟩

/-- A node between the root and a selected leaf takes the row of the leaf, and so does the root,
which does not keep the row of the node. -/
theorem collect_exact_ring :
    let t : SteinerTree := ⟨0, [(0, 5), (5, 4), (0, 1), (1, 2)]⟩
    let selected := [2, 5, 4]
    let M := identity 6
    let run := (collect t selected).record true M (some (Circuit.empty 6))
    (CouplingGraph.ring 6).steinerTree 0 (selected ++ [0]) (List.range 6) = .ok t ∧
      selected.Nodup ∧ (∀ q ∈ selected, q ∈ t.nodes ∧ q ≠ 0) ∧ run.outcome = .ok () ∧
      run.matrix.row 0 = M.row 0 + (selected.map M.row).sum ∧
      run.matrix.row 1 = M.row 1 + M.row 2 ∧ run.matrix.row 2 = M.row 2 := by
  intro t selected M run
  have htree : (CouplingGraph.ring 6).steinerTree 0 (selected ++ [0]) (List.range 6) = .ok t := by
    decide
  have hgrows : Grows t.root t.edges := (CouplingGraph.steinerTree_ok htree).1.grows
  have hnodes : ∀ q ∈ t.nodes, q < 6 := by decide
  have hc : ∀ c ∈ some (Circuit.empty 6), ∀ q ∈ t.nodes, q < c.qubits := by
    rintro _ ⟨⟩
    exact hnodes
  have hsub : ∀ q ∈ selected, q ∈ t.nodes ∧ q ≠ t.root := by decide
  obtain ⟨houtcome, hroot, hothers, _⟩ := collect_exact (M := M) hgrows hnodes hc (by decide) hsub
  have hrow : ∀ v ∈ t.nodes, v ≠ 0 → ∀ l : List ℕ, l.Nodup →
      (∀ s, s ∈ l ↔ s ∈ selected ∧ s ∈ below t.edges v) →
      run.matrix.row v = M.row v + (l.map M.row).sum := by
    intro v hv hne l hl hmem
    obtain ⟨under, hunder, hbelow, hsum⟩ := hothers v hv hne
    have hperm : under.Perm l := by
      refine (List.perm_ext_iff_of_nodup hunder hl).mpr fun s => ?_
      rw [hbelow, hmem, mem_below_iff hgrows]
    rw [hsum, (hperm.map M.row).sum_eq]
  refine ⟨htree, by decide, hsub, houtcome, hroot, ?_, ?_⟩
  · have hbelow : below t.edges 1 = [2] := by decide
    simpa using hrow 1 (by decide) (by decide) [2] (by decide) (by simp [hbelow, selected])
  · have hbelow : below t.edges 2 = [] := by decide
    simpa using hrow 2 (by decide) (by decide) [] (by decide) (by simp [hbelow])

end Reduction

end CnotSynthesis
