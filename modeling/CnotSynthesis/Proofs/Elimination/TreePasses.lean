import CnotSynthesis.Elimination.Tree
import CnotSynthesis.Proofs.Elimination.Steps
import CnotSynthesis.Proofs.Graph.RootedTrees

/-! # Passes over a tree

A pass is a function of the work (`Work.raise` and the like, carried out by `Reduction.raise` and
the like). It is followed by taking off the last edge of the growing tree: its child is new, so the
other edges neither read nor change its row.

* **`Reduction.lower_yields`** — `lower` leaves the root with the only one of the column;
  **`Reduction.length_lower`** — it adds once for every edge and once for every zero at a node.
* **`Work.row_spread`**, **`Reduction.upper_yields`** — `upper` adds the root row into exactly the
  nodes that hold a one.
* **`Work.row_collect`** — `collect` adds the selected rows into the nodes above them.

The passes take steps along the edges only (`Work.steps_raise` and the like), which says what they
leave alone. -/

namespace CnotSynthesis

namespace SteinerTree

/-- A row addition from a child into its parent. -/
def Upward (t : SteinerTree) (target source : ℕ) : Prop := (target, source) ∈ t.edges

/-- A row addition from a parent into its child. -/
def Downward (t : SteinerTree) (target source : ℕ) : Prop := (source, target) ∈ t.edges

/-- A row addition along an edge. -/
def Along (t : SteinerTree) (target source : ℕ) : Prop :=
  t.Upward target source ∨ t.Downward target source

/-- Both ends of an edge are nodes. -/
theorem Along.mem_nodes {t : SteinerTree} {target source : ℕ} (h : t.Along target source)
    (hgrows : Grows t.root t.edges) : target ∈ t.nodes ∧ source ∈ t.nodes := by
  have hends : ∀ e ∈ t.edges, e.1 ∈ t.nodes ∧ e.2 ∈ t.nodes := fun e he =>
    ⟨hgrows.parent_mem he, mem_nodes_of_mem_children (mem_children he)⟩
  rcases h with h | h
  · exact hends _ h
  · exact (hends _ h).symm

end SteinerTree

/-! ## The passes as functions of the work -/

namespace Work

/-- Children before parents, a parent that holds a zero in the column takes the row of its child. -/
def raise (w : Work) (t : SteinerTree) (column : ℕ) : Work :=
  t.postorder.foldl (fun w (p, c) => if w.matrix.entry p column then w else w.addRow p c) w

/-- Children before parents, every node takes the row of its parent. -/
def cancel (w : Work) (t : SteinerTree) : Work :=
  t.postorder.foldl (fun w (p, c) => w.addRow c p) w

/-- The first pass of `spread`: from the last edge on, every child takes the row of its parent, if
that is not `top`. -/
def takeFromParents (top : ℕ) (edges : List (ℕ × ℕ)) (w : Work) : Work :=
  edges.reverse.foldl (fun w (p, c) => if p = top then w else w.addRow c p) w

/-- The second pass of `spread`: every child takes the row of its parent, parents first. -/
def pushDown (edges : List (ℕ × ℕ)) (w : Work) : Work :=
  edges.foldl (fun w (p, c) => w.addRow c p) w

/-- The root row is added into every other node. -/
def spread (w : Work) (t : SteinerTree) : Work :=
  pushDown t.edges (takeFromParents t.root t.edges w)

/-- The first pass of `collect`: parents first, a parent takes the row of a child that is not
selected. -/
def takeUnselected (selected : List ℕ) (edges : List (ℕ × ℕ)) (w : Work) : Work :=
  edges.foldl (fun w (p, c) => if selected.contains c then w else w.addRow p c) w

/-- The second pass of `collect`: from the last edge on, a parent takes the row of its child. -/
def sumUp (edges : List (ℕ × ℕ)) (w : Work) : Work :=
  edges.reverse.foldl (fun w (p, c) => w.addRow p c) w

/-- The sum of the selected nodes is added into the root. -/
def collect (w : Work) (t : SteinerTree) (selected : List ℕ) : Work :=
  sumUp t.edges (takeUnselected selected t.edges w)

end Work

namespace Reduction

variable (t : SteinerTree) (w : Work)

/-- Raising is the pure pass. -/
theorem exec_raise (column : ℕ) : (raise t column).exec w = (.ok (), w.raise t column) := by
  refine Script.exec_forM ?_ t.postorder w
  rintro ⟨p, c⟩ w
  change (if w.matrix.entry p column = true then pure () else addRow p c
    : Reduction Unit).exec w = _
  dsimp only
  split <;> rfl

/-- Cancelling is the pure pass. -/
theorem exec_cancel : (cancel t).exec w = (.ok (), w.cancel t) :=
  Script.exec_forM (fun _ _ => rfl) t.postorder w

/-- Spreading is the pure pass. -/
theorem exec_spread : (spread t).exec w = (.ok (), w.spread t) := by
  unfold spread
  rw [Script.exec_bind,
    Script.exec_forM (g := fun w (p, c) => if p = t.root then w else w.addRow c p)]
  · exact Script.exec_forM (fun _ _ => rfl) t.edges _
  · rintro ⟨p, c⟩ w
    dsimp only
    split <;> rfl

/-- Collecting is the pure pass. -/
theorem exec_collect (selected : List ℕ) :
    (collect t selected).exec w = (.ok (), w.collect t selected) := by
  unfold collect
  rw [Script.exec_bind,
    Script.exec_forM (g := fun w (p, c) => if selected.contains c then w else w.addRow p c)]
  · exact Script.exec_forM (fun _ _ => rfl) t.postorder _
  · rintro ⟨p, c⟩ w
    dsimp only
    split <;> rfl

end Reduction

namespace Work

open ParityMatrix SteinerTree

variable {t : SteinerTree}

/-! ## Steps of the passes -/

/-- A row addition, on the rows as vectors. -/
theorem row_addRow {w : Work} {target : ℕ} (h : target < w.matrix.rows) (source : ℕ) :
    (w.addRow target source).matrix.row =
      Function.update w.matrix.row target (w.matrix.row target + w.matrix.row source) :=
  ParityMatrix.row_addRow h source

/-- Raising adds rows towards the root. -/
theorem steps_raise (w : Work) (t : SteinerTree) (column : ℕ) :
    Steps t.Upward w (w.raise t column) := by
  refine steps_foldl ?_ w
  rintro ⟨p, c⟩ he w
  dsimp only
  split
  · exact Steps.refl w
  · exact steps_addRow (List.mem_reverse.mp he) w

/-- Cancelling adds rows away from the root. -/
theorem steps_cancel (w : Work) (t : SteinerTree) : Steps t.Downward w (w.cancel t) := by
  refine steps_foldl ?_ w
  rintro ⟨p, c⟩ he w
  exact steps_addRow (List.mem_reverse.mp he) w

/-- Spreading adds rows away from the root. -/
theorem steps_spread (w : Work) (t : SteinerTree) : Steps t.Downward w (w.spread t) := by
  refine Steps.trans (steps_foldl ?_ w) (steps_foldl ?_ _)
  · rintro ⟨p, c⟩ he w
    dsimp only
    split
    · exact Steps.refl w
    · exact steps_addRow (List.mem_reverse.mp he) w
  · rintro ⟨p, c⟩ he w
    exact steps_addRow he w

/-- Collecting adds rows towards the root. -/
theorem steps_collect (w : Work) (t : SteinerTree) (selected : List ℕ) :
    Steps t.Upward w (w.collect t selected) := by
  refine Steps.trans (steps_foldl ?_ w) (steps_foldl ?_ _)
  · rintro ⟨p, c⟩ he w
    dsimp only
    split
    · exact Steps.refl w
    · exact steps_addRow he w
  · rintro ⟨p, c⟩ he w
    exact steps_addRow (List.mem_reverse.mp he) w

/-! ## Gathering a one at the root -/

/-- Raising begins with the last edge. -/
theorem raise_snoc (w : Work) (root : ℕ) (edges : List (ℕ × ℕ)) (p c column : ℕ) :
    w.raise ⟨root, edges ++ [(p, c)]⟩ column =
      (if w.matrix.entry p column then w else w.addRow p c).raise ⟨root, edges⟩ column := by
  simp [raise, SteinerTree.postorder]

/-- **One step of raising**: the last child is a leaf, so it holds a one, and after its edge its
parent does. The rest of the tree is raised under the same condition. -/
theorem raise_last {root p c column : ℕ} {edges : List (ℕ × ℕ)} (h : Grows root edges)
    (hp : p ∈ root :: edges.map (·.2)) (hc : c ∉ root :: edges.map (·.2)) {w w' : Work}
    (hw : (if w.matrix.entry p column then w else w.addRow p c) = w') (hlt : p < w.matrix.rows)
    (hleaf : ∀ q ∈ root :: (edges ++ [(p, c)]).map (·.2),
      w.matrix.entry q column = true ∨ ∃ d, (q, d) ∈ edges ++ [(p, c)]) :
    w.matrix.entry c column = true ∧ w'.matrix.rows = w.matrix.rows ∧
      (∀ q, q ≠ p → w'.matrix.entry q column = w.matrix.entry q column) ∧
      w'.matrix.entry p column = true ∧
      ∀ q ∈ root :: edges.map (·.2), w'.matrix.entry q column = true ∨ ∃ d, (q, d) ∈ edges := by
  rw [List.map_append, ← List.cons_append] at hleaf
  have hcone : w.matrix.entry c column = true := by
    rcases hleaf c (by simp) with hone | ⟨d, hd⟩
    · exact hone
    · rcases List.mem_append.mp hd with hd | hd
      · exact absurd rfl (h.not_end hc hd).1
      · have hcp : c = p := (Prod.ext_iff.mp (List.mem_singleton.mp hd)).1
        exact absurd (hcp ▸ hp) hc
  have hrows : w'.matrix.rows = w.matrix.rows := by
    rw [← hw]
    split <;> rfl
  have hentry : ∀ q, q ≠ p → w'.matrix.entry q column = w.matrix.entry q column := by
    intro q hq
    rw [← hw]
    split
    · rfl
    · exact (entry_addRow _ _ _ _ _).trans (if_neg fun hqp => hq hqp.1)
  have hpone : w'.matrix.entry p column = true := by
    rw [← hw]
    split
    · next hone => exact hone
    · next hzero =>
      change (w.matrix.addRow p c).entry p column = true
      rw [entry_addRow, if_pos ⟨rfl, hlt⟩, hcone, Bool.eq_false_iff.mpr hzero]
      rfl
  refine ⟨hcone, hrows, hentry, hpone, fun q hq => ?_⟩
  by_cases hqp : q = p
  · exact .inl (hqp ▸ hpone)
  · rw [hentry q hqp]
    rcases hleaf q (List.mem_append_left _ hq) with hone | ⟨d, hd⟩
    · exact .inl hone
    · rcases List.mem_append.mp hd with hd | hd
      · exact .inr ⟨d, hd⟩
      · exact absurd (Prod.ext_iff.mp (List.mem_singleton.mp hd)).1 hqp

/-- **Raising**: if every leaf holds a one, every node does in the end. -/
theorem entry_raise {root : ℕ} {edges : List (ℕ × ℕ)} (h : Grows root edges) (column : ℕ) :
    ∀ w : Work, (∀ q ∈ root :: edges.map (·.2), q < w.matrix.rows) →
      (∀ q ∈ root :: edges.map (·.2), w.matrix.entry q column = true ∨ ∃ d, (q, d) ∈ edges) →
      ∀ q ∈ root :: edges.map (·.2),
        (w.raise ⟨root, edges⟩ column).matrix.entry q column = true := by
  induction h with
  | nil =>
    intro w _ hleaf q hq
    rcases hleaf q hq with hone | ⟨d, hd⟩
    · exact hone
    · cases hd
  | @snoc edges p c h hp hc ih =>
    intro w hlt hleaf
    rw [raise_snoc]
    rw [List.map_append, ← List.cons_append] at hlt ⊢
    have hlt' : ∀ q ∈ root :: edges.map (·.2), q < w.matrix.rows := fun q hq =>
      hlt q (List.mem_append_left _ hq)
    generalize hw : (if w.matrix.entry p column then w else w.addRow p c) = w'
    obtain ⟨hcone, hrows, hentry, hpone, hleaf'⟩ := raise_last h hp hc hw (hlt' p hp) hleaf
    intro q hq
    rcases List.mem_append.mp hq with hq | hq
    · exact ih w' (by rwa [hrows]) hleaf' q hq
    · -- the earlier edges do not change the row of the last child
      have hqc : q = c := by simpa using hq
      have hcp : c ≠ p := fun heq => hc (heq ▸ hp)
      have hkeep := (steps_raise w' ⟨root, edges⟩ column).entry_eq_of_notMem
        (S := {q | q ≠ c}) (fun a b hab => (h.not_end hc hab).1) (r := c) (by simp) column
      rw [hqc, hkeep, hentry c hcp, hcone]

/-- A condition that is met at one more place. -/
theorem countP_eq_succ {l : List ℕ} (hl : l.Nodup) {p : ℕ} (hp : p ∈ l) {f g : ℕ → Bool}
    (hfg : ∀ q, q ≠ p → f q = g q) (hf : f p = true) (hg : g p = false) :
    l.countP f = l.countP g + 1 := by
  have hperm := List.perm_cons_erase hp
  have hrest : (l.erase p).countP f = (l.erase p).countP g := by
    refine List.countP_congr fun q hq => ?_
    rw [hfg q fun hqp => hl.not_mem_erase (hqp ▸ hq)]
  rw [hperm.countP_eq, hperm.countP_eq, List.countP_cons_of_pos hf,
    List.countP_cons_of_neg (by simp [hg]), hrest]

/-- **Raising adds once for every zero**: a node that holds a zero takes the row of one child. -/
theorem length_raise {root : ℕ} {edges : List (ℕ × ℕ)} (h : Grows root edges) (column : ℕ) :
    ∀ w : Work, (∀ q ∈ root :: edges.map (·.2), q < w.matrix.rows) →
      (∀ q ∈ root :: edges.map (·.2), w.matrix.entry q column = true ∨ ∃ d, (q, d) ∈ edges) →
      (rowAdditions (w.raise ⟨root, edges⟩ column).events).length =
        (rowAdditions w.events).length +
          (root :: edges.map (·.2)).countP (fun q => !w.matrix.entry q column) := by
  induction h with
  | nil =>
    intro w _ hleaf
    have hroot : w.matrix.entry root column = true :=
      (hleaf root List.mem_cons_self).resolve_right fun ⟨d, hd⟩ => nomatch hd
    simp [raise, SteinerTree.postorder, hroot]
  | @snoc edges p c h hp hc ih =>
    intro w hlt hleaf
    rw [raise_snoc]
    rw [List.map_append, ← List.cons_append] at hlt ⊢
    have hlt' : ∀ q ∈ root :: edges.map (·.2), q < w.matrix.rows := fun q hq =>
      hlt q (List.mem_append_left _ hq)
    generalize hw : (if w.matrix.entry p column then w else w.addRow p c) = w'
    obtain ⟨hcone, hrows, hentry, hpone, hleaf'⟩ := raise_last h hp hc hw (hlt' p hp) hleaf
    rw [ih w' (by rwa [hrows]) hleaf', List.countP_append]
    have hlast : ([(p, c)].map (·.2)).countP (fun q => !w.matrix.entry q column) = 0 := by
      simp [hcone]
    rw [hlast, Nat.add_zero]
    split at hw
    · rw [hw]
    · next hzero =>
      have hcount := countP_eq_succ h.nodup hp (f := fun q => !w.matrix.entry q column)
        (g := fun q => !w'.matrix.entry q column) (fun q hq => by rw [hentry q hq])
        (by simpa using hzero) (by simp [hpone])
      rw [hcount, ← hw, rowAdditions_addRow, List.length_append, List.length_singleton]
      omega

/-- Cancelling begins with the last edge. -/
theorem cancel_snoc (w : Work) (root : ℕ) (edges : List (ℕ × ℕ)) (p c : ℕ) :
    w.cancel ⟨root, edges ++ [(p, c)]⟩ = (w.addRow c p).cancel ⟨root, edges⟩ := by
  simp [cancel, SteinerTree.postorder]

/-- **Cancelling**: ones at all nodes go away at the children. -/
theorem entry_cancel {root : ℕ} {edges : List (ℕ × ℕ)} (h : Grows root edges) (column : ℕ) :
    ∀ w : Work, (∀ q ∈ root :: edges.map (·.2), q < w.matrix.rows) →
      (∀ q ∈ root :: edges.map (·.2), w.matrix.entry q column = true) →
      ∀ e ∈ edges, (w.cancel ⟨root, edges⟩).matrix.entry e.2 column = false := by
  induction h with
  | nil => exact fun _ _ _ e he => nomatch he
  | @snoc edges p c h hp hc ih =>
    intro w hlt hones e he
    rw [cancel_snoc]
    rw [List.map_append, ← List.cons_append] at hlt hones
    have hentry : ∀ q, q ≠ c → (w.addRow c p).matrix.entry q column = w.matrix.entry q column :=
      fun q hq => (entry_addRow _ _ _ _ _).trans (if_neg fun hqc => hq hqc.1)
    rcases List.mem_append.mp he with he | he
    · refine ih (w.addRow c p) (fun q hq => hlt q (List.mem_append_left _ hq)) ?_ e he
      intro q hq
      rw [hentry q fun hqc => hc (hqc ▸ hq)]
      exact hones q (List.mem_append_left _ hq)
    · rw [List.mem_singleton.mp he]
      have hkeep := (steps_cancel (w.addRow c p) ⟨root, edges⟩).entry_eq_of_notMem
        (S := {q | q ≠ c}) (fun a b hab => (h.not_end hc hab).2) (r := c) (by simp) column
      rw [hkeep]
      change (w.matrix.addRow c p).entry c column = false
      rw [entry_addRow, if_pos ⟨rfl, hlt c (by simp)⟩, hones c (by simp),
        hones p (List.mem_append_left _ hp)]
      rfl

/-- Cancelling takes one row addition for every edge. -/
theorem length_cancel (w : Work) (t : SteinerTree) :
    (rowAdditions (w.cancel t).events).length =
      (rowAdditions w.events).length + t.edges.length := by
  have hlength : t.edges.length = t.postorder.length := List.length_reverse.symm
  rw [hlength]
  unfold cancel
  generalize t.postorder = edges
  induction edges generalizing w with
  | nil => rfl
  | cons e edges ih =>
    rw [List.foldl_cons, ih, rowAdditions_addRow, List.length_append, List.length_singleton,
      List.length_cons]
    omega

/-! ## Adding the root row into every child -/

/-- The first half of spreading begins with the last edge. -/
theorem takeFromParents_snoc (top : ℕ) (edges : List (ℕ × ℕ)) (p c : ℕ) (w : Work) :
    takeFromParents top (edges ++ [(p, c)]) w =
      takeFromParents top edges (if p = top then w else w.addRow c p) := by
  simp [takeFromParents]

/-- The second half of spreading ends with the last edge. -/
theorem pushDown_snoc (edges : List (ℕ × ℕ)) (p c : ℕ) (w : Work) :
    pushDown (edges ++ [(p, c)]) w = (pushDown edges w).addRow c p := by
  simp [pushDown]

/-- The first half of spreading keeps the number of rows. -/
theorem rows_takeFromParents (top : ℕ) (edges : List (ℕ × ℕ)) (w : Work) :
    (takeFromParents top edges w).matrix.rows = w.matrix.rows := by
  refine (steps_foldl (E := fun _ _ => True) ?_ w).rows_eq
  intro e _ w
  dsimp only
  split
  · exact Steps.refl w
  · exact steps_addRow trivial w

/-- The second half of spreading keeps the number of rows. -/
theorem rows_pushDown (edges : List (ℕ × ℕ)) (w : Work) :
    (pushDown edges w).matrix.rows = w.matrix.rows :=
  (steps_foldl (E := fun _ _ => True) (fun _ _ w => steps_addRow trivial w) w).rows_eq

/-- **The first pass**: a child whose parent is not `top` holds its own row and its parent's. -/
theorem row_takeFromParents {root : ℕ} {edges : List (ℕ × ℕ)} (h : Grows root edges) (top : ℕ) :
    ∀ w : Work, (∀ q ∈ root :: edges.map (·.2), q < w.matrix.rows) →
      (∀ e ∈ edges, (takeFromParents top edges w).matrix.row e.2 =
        w.matrix.row e.2 + if e.1 = top then 0 else w.matrix.row e.1) ∧
      ∀ q, q ∉ edges.map (·.2) → (takeFromParents top edges w).matrix.row q = w.matrix.row q := by
  induction h with
  | nil => exact fun _ _ => ⟨by simp, fun _ _ => rfl⟩
  | @snoc edges p c h hp hc ih =>
    intro w hlt
    rw [List.map_append, ← List.cons_append] at hlt
    rw [takeFromParents_snoc]
    generalize hw : (if p = top then w else w.addRow c p) = w'
    have hrow : w'.matrix.row = Function.update w.matrix.row c
        (w.matrix.row c + if p = top then 0 else w.matrix.row p) := by
      rw [← hw]
      split
      · rw [add_zero, Function.update_eq_self]
      · exact row_addRow (hlt c (by simp)) p
    have hrows : w'.matrix.rows = w.matrix.rows := by
      rw [← hw]
      split <;> rfl
    obtain ⟨hedges, hothers⟩ := ih w' (by
      rw [hrows]
      exact fun q hq => hlt q (List.mem_append_left _ hq))
    have hne : ∀ q, q ≠ c → w'.matrix.row q = w.matrix.row q := fun q hq => by
      rw [hrow, Function.update_of_ne hq]
    refine ⟨?_, ?_⟩
    · intro e he
      rcases List.mem_append.mp he with he | he
      · rw [hedges e he, hne _ (h.not_end hc he).1, hne _ (h.not_end hc he).2]
      · rw [List.mem_singleton.mp he, hothers c fun hmem => hc (List.mem_cons_of_mem _ hmem), hrow,
          Function.update_self]
    · intro q hq
      rw [List.map_append, List.mem_append, not_or] at hq
      rw [hothers q hq.1, hne q (by simpa using hq.2)]

/-- **The second pass**: where each child holds the sum of its own row and its parent's, by `f`, the
root row alone is left over. -/
theorem row_pushDown {root : ℕ} {edges : List (ℕ × ℕ)} (h : Grows root edges)
    (f : ℕ → ℕ → ZMod 2) : ∀ w : Work, (∀ q ∈ root :: edges.map (·.2), q < w.matrix.rows) →
      w.matrix.row root = f root →
      (∀ e ∈ edges, w.matrix.row e.2 = f e.2 + if e.1 = root then 0 else f e.1) →
      (∀ q ∈ edges.map (·.2), (pushDown edges w).matrix.row q = f q + f root) ∧
      ∀ q, q ∉ edges.map (·.2) → (pushDown edges w).matrix.row q = w.matrix.row q := by
  induction h with
  | nil => exact fun _ _ _ _ => ⟨by simp, fun _ _ => rfl⟩
  | @snoc edges p c h hp hc ih =>
    intro w hlt hroot hedges
    rw [List.map_append, ← List.cons_append] at hlt
    obtain ⟨hchildren, hothers⟩ := ih w (fun q hq => hlt q (List.mem_append_left _ hq)) hroot
      fun e he => hedges e (List.mem_append_left _ he)
    have hclt : c < (pushDown edges w).matrix.rows := by
      rw [rows_pushDown]
      exact hlt c (by simp)
    have hc' : c ∉ edges.map (·.2) := fun hmem => hc (List.mem_cons_of_mem _ hmem)
    have hroot' : root ∉ edges.map (·.2) := (List.nodup_cons.mp h.nodup).1
    -- the parent holds its own row and the root row, if it is not the root itself
    have hlast : (pushDown edges w).matrix.row c + (pushDown edges w).matrix.row p =
        f c + f root := by
      rw [hothers c hc', hedges (p, c) (by simp)]
      rcases List.mem_cons.mp hp with heq | hmem
      · rw [heq, hothers root hroot', if_pos rfl, add_zero, hroot]
      · have hpr : p ≠ root := fun heq => hroot' (heq ▸ hmem)
        rw [hchildren p hmem, if_neg hpr, add_assoc, ← add_assoc (f p), ZModModule.add_self,
          zero_add]
    rw [pushDown_snoc, row_addRow hclt p, hlast]
    refine ⟨?_, ?_⟩
    · intro q hq
      rw [List.map_append] at hq
      rcases List.mem_append.mp hq with hq | hq
      · have hqc : q ≠ c := fun heq => hc' (heq ▸ hq)
        rw [Function.update_of_ne hqc]
        exact hchildren q hq
      · have hqc : q = c := by simpa using hq
        rw [hqc, Function.update_self]
    · intro q hq
      rw [List.map_append, List.mem_append, not_or] at hq
      rw [Function.update_of_ne (by simpa using hq.2), hothers q hq.1]

/-- **Spreading** adds the root row into every child. -/
theorem row_spread (h : Grows t.root t.edges) (w : Work) (hlt : ∀ q ∈ t.nodes, q < w.matrix.rows)
    (q : ℕ) : (w.spread t).matrix.row q =
      if q ∈ t.children then w.matrix.row q + w.matrix.row t.root else w.matrix.row q := by
  obtain ⟨hedges, hothers⟩ := row_takeFromParents h t.root w hlt
  have hroot := hothers t.root (List.nodup_cons.mp h.nodup).1
  obtain ⟨hchildren, hrest⟩ := row_pushDown h w.matrix.row _
    (by rwa [rows_takeFromParents]) hroot hedges
  unfold spread
  split
  · next hq => exact hchildren q hq
  · next hq => exact (hrest q hq).trans (hothers q hq)

/-- Spreading a root row with a one flips the column at every child and nowhere else. -/
theorem entry_spread (h : Grows t.root t.edges) (w : Work) (hlt : ∀ q ∈ t.nodes, q < w.matrix.rows)
    {column : ℕ} (hroot : w.matrix.entry t.root column = true) (q : ℕ) :
    (w.spread t).matrix.entry q column =
      if q ∈ t.children then !w.matrix.entry q column else w.matrix.entry q column := by
  have hcolumn := congrFun (row_spread h w hlt q) column
  apply bitValue_injective
  rw [← row_apply, hcolumn]
  split
  · rw [Pi.add_apply, row_apply, row_apply, hroot, ← bitValue_bne, Bool.bne_true]
  · rfl

/-! ## Adding selected rows into the root -/

/-- The first half of collecting ends with the last edge. -/
theorem takeUnselected_snoc (selected : List ℕ) (edges : List (ℕ × ℕ)) (p c : ℕ) (w : Work) :
    takeUnselected selected (edges ++ [(p, c)]) w =
      if selected.contains c then takeUnselected selected edges w
      else (takeUnselected selected edges w).addRow p c := by
  simp [takeUnselected]

/-- The second half of collecting begins with the last edge. -/
theorem sumUp_snoc (edges : List (ℕ × ℕ)) (p c : ℕ) (w : Work) :
    sumUp (edges ++ [(p, c)]) w = sumUp edges (w.addRow p c) := by
  simp [sumUp]

/-- The first half of collecting adds rows along the edges. -/
theorem steps_takeUnselected (selected : List ℕ) (edges : List (ℕ × ℕ)) (w : Work) :
    Steps (fun a b => (a, b) ∈ edges) w (takeUnselected selected edges w) := by
  refine steps_foldl ?_ w
  rintro ⟨a, b⟩ he w
  dsimp only
  split
  · exact Steps.refl w
  · exact steps_addRow he w

/-- A sum over distinct rows after row `p` took another row. -/
theorem sum_map_update {l : List ℕ} (hl : l.Nodup) (p : ℕ) (f : ℕ → ℕ → ZMod 2) (x : ℕ → ZMod 2) :
    (l.map (Function.update f p (f p + x))).sum = (l.map f).sum + if p ∈ l then x else 0 := by
  induction l with
  | nil => simp
  | cons a l ih =>
    obtain ⟨ha, hl⟩ := List.nodup_cons.mp hl
    rw [List.map_cons, List.sum_cons, List.map_cons, List.sum_cons, ih hl]
    by_cases hap : p = a
    · subst hap
      rw [Function.update_self, if_neg ha, if_pos List.mem_cons_self]
      abel
    · have hmem : p ∈ a :: l ↔ p ∈ l := by simp [hap]
      rw [Function.update_of_ne (Ne.symm hap), add_assoc]
      simp only [hmem]

/-- **Summing up**: every node ends with the sum of the nodes at or below it. -/
theorem row_sumUp {root : ℕ} {edges : List (ℕ × ℕ)} (h : Grows root edges) (v : ℕ) :
    ∀ w : Work, (∀ q ∈ root :: edges.map (·.2), q < w.matrix.rows) →
      (sumUp edges w).matrix.row v = ((v :: below edges v).map w.matrix.row).sum := by
  induction h with
  | nil => exact fun w _ => by simp [sumUp, below]
  | @snoc edges p c h hp hc ih =>
    intro w hlt
    rw [List.map_append, ← List.cons_append] at hlt
    rw [sumUp_snoc, ih (w.addRow p c) fun q hq => hlt q (List.mem_append_left _ hq),
      row_addRow (hlt p (List.mem_append_left _ hp)) c, sum_map_update (nodup_cons_below h v),
      below_snoc]
    split
    · simp [add_assoc]
    · rw [add_zero]

/-- **The first pass** makes the rows that are not selected cancel in the sums of the second. -/
theorem sum_takeUnselected {root : ℕ} {edges : List (ℕ × ℕ)} (h : Grows root edges)
    (selected : List ℕ) (w : Work) (hlt : ∀ q ∈ root :: edges.map (·.2), q < w.matrix.rows)
    (v : ℕ) :
    ((v :: below edges v).map (takeUnselected selected edges w).matrix.row).sum =
      w.matrix.row v + (((below edges v).filter selected.contains).map w.matrix.row).sum := by
  induction h with
  | nil => simp [takeUnselected, below]
  | @snoc edges p c h hp hc ih =>
    rw [List.map_append, ← List.cons_append] at hlt
    have ih := ih fun q hq => hlt q (List.mem_append_left _ hq)
    have hsteps := steps_takeUnselected selected edges w
    have hplt : p < (takeUnselected selected edges w).matrix.rows := by
      rw [hsteps.rows_eq]
      exact hlt p (List.mem_append_left _ hp)
    have hcp : c ≠ p := fun heq => hc (heq ▸ hp)
    -- the earlier edges leave the row of the last child alone
    have hcrow : (takeUnselected selected edges w).matrix.row c = w.matrix.row c := by
      funext j
      rw [row_apply, row_apply, hsteps.entry_eq_of_notMem (S := {q | q ≠ c})
        (fun a b hab => (h.not_end hc hab).1) (by simp)]
    rw [takeUnselected_snoc, below_snoc]
    by_cases hsel : selected.contains c
    · rw [if_pos hsel]
      split
      · rw [← List.cons_append, List.map_append, List.sum_append, ih, List.filter_append,
          List.map_append, List.sum_append, add_assoc]
        have hlast : [c].filter selected.contains = [c] := by simpa using hsel
        rw [hlast]
        simp [hcrow]
      · exact ih
    · rw [if_neg hsel, row_addRow hplt c]
      split
      · next hmem =>
        have hlast : [c].filter selected.contains = [] := by simpa using hsel
        -- the row of the last child is in the sum twice
        rw [← List.cons_append, List.map_append, List.sum_append,
          sum_map_update (nodup_cons_below h v), if_pos hmem, ih, List.filter_append, hlast]
        simp [Function.update_of_ne hcp, add_assoc, ZModModule.add_self]
      · next hmem =>
        rw [sum_map_update (nodup_cons_below h v), if_neg hmem, add_zero]
        exact ih

/-- **Collecting** adds into every node the selected rows strictly below it. -/
theorem row_collect (h : Grows t.root t.edges) (w : Work) (hlt : ∀ q ∈ t.nodes, q < w.matrix.rows)
    {selected : List ℕ} (hnodup : selected.Nodup) (v : ℕ) :
    (w.collect t selected).matrix.row v = w.matrix.row v +
      ((selected.filter (below t.edges v).contains).map w.matrix.row).sum := by
  have hbelow : (below t.edges v).Nodup := (List.nodup_cons.mp (nodup_cons_below h v)).2
  have hperm : ((below t.edges v).filter selected.contains).Perm
      (selected.filter (below t.edges v).contains) := by
    refine (List.perm_ext_iff_of_nodup (hbelow.filter _) (hnodup.filter _)).mpr fun q => ?_
    simp only [List.mem_filter, List.contains_iff_mem]
    exact and_comm
  have hrows := (steps_takeUnselected selected t.edges w).rows_eq
  calc (w.collect t selected).matrix.row v
      = ((v :: below t.edges v).map (takeUnselected selected t.edges w).matrix.row).sum := by
        unfold collect
        exact row_sumUp h v _ (by rwa [hrows])
    _ = w.matrix.row v + (((below t.edges v).filter selected.contains).map w.matrix.row).sum :=
        sum_takeUnselected h selected w hlt v
    _ = w.matrix.row v + ((selected.filter (below t.edges v).contains).map w.matrix.row).sum := by
        rw [(hperm.map w.matrix.row).sum_eq]

/-- **The root** takes all selected rows, since all children are below it. -/
theorem row_collect_root (h : Grows t.root t.edges) (w : Work)
    (hlt : ∀ q ∈ t.nodes, q < w.matrix.rows) {selected : List ℕ} (hnodup : selected.Nodup)
    (hsub : ∀ q ∈ selected, q ∈ t.children) :
    (w.collect t selected).matrix.row t.root =
      w.matrix.row t.root + (selected.map w.matrix.row).sum := by
  have hall : selected.filter (below t.edges t.root).contains = selected := by
    refine List.filter_eq_self.mpr fun q hq => List.contains_iff_mem.mpr ?_
    exact (mem_below_root h).mpr (hsub q hq)
  rw [row_collect h w hlt hnodup, hall]

end Work

/-! ## The eliminations along a tree -/

namespace Reduction

open Work ParityMatrix

variable {F : Prop} {t : SteinerTree} {w : Work}

/-- Raising follows the tree. -/
theorem proceeds_raise (t : SteinerTree) (column : ℕ) : Proceeds t.Along (raise t column) :=
  proceeds_of_exec (exec_raise t · column) fun w => (steps_raise w t column).mono fun _ _ => .inl

/-- Cancelling follows the tree. -/
theorem proceeds_cancel (t : SteinerTree) : Proceeds t.Along (cancel t) :=
  proceeds_of_exec (exec_cancel t) fun w => (steps_cancel w t).mono fun _ _ => .inr

/-- Spreading follows the tree. -/
theorem proceeds_spread (t : SteinerTree) : Proceeds t.Along (spread t) :=
  proceeds_of_exec (exec_spread t) fun w => (steps_spread w t).mono fun _ _ => .inr

/-- Collecting follows the tree. -/
theorem proceeds_collect (t : SteinerTree) (selected : List ℕ) :
    Proceeds t.Along (collect t selected) :=
  proceeds_of_exec (exec_collect t · selected) fun w =>
    (steps_collect w t selected).mono fun _ _ => .inl

/-- Lower elimination follows the tree. -/
theorem proceeds_lower (t : SteinerTree) (column : ℕ) : Proceeds t.Along (lower t column) := by
  refine (proceeds_raise t column).bind fun _ => (proceeds_cancel t).bind fun _ =>
    proceeds_matrix.bind fun M => ?_
  cases lowerFault? M t column with
  | some cause => exact proceeds_fail cause
  | none => exact proceeds_pure ()

/-- **Gathering a one at the root**: if every leaf holds a one, `lower` succeeds, and of the nodes
the root alone holds a one. -/
theorem lower_yields (h : Grows t.root t.edges) (hlt : ∀ q ∈ t.nodes, q < w.matrix.rows)
    {column : ℕ}
    (hleaf : ∀ q ∈ t.nodes, w.matrix.entry q column = true ∨ ∃ d, (q, d) ∈ t.edges) :
    Yields F (lower t column) w fun _ w' => Steps t.Along w w' ∧
      w'.matrix.entry t.root column = true ∧
        ∀ q ∈ t.children, w'.matrix.entry q column = false := by
  have hraise := entry_raise h column w hlt hleaf
  have hrows := (steps_raise w t column).rows_eq
  have hcancel := entry_cancel h column (w.raise t column)
    (fun q hq => by rw [hrows]; exact hlt q hq) hraise
  -- the root is no child, so cancelling leaves it alone
  have hroot : ((w.raise t column).cancel t).matrix.entry t.root column = true := by
    rw [(steps_cancel (w.raise t column) t).entry_eq_of_notMem (S := {q | q ≠ t.root})
      (fun a b hab => h.child_ne_root hab) (by simp)]
    exact hraise t.root List.mem_cons_self
  have hchildren : ∀ q ∈ t.children,
      ((w.raise t column).cancel t).matrix.entry q column = false := by
    intro q hq
    obtain ⟨e, he, rfl⟩ := List.mem_map.mp hq
    exact hcancel e he
  have hfault : lowerFault? ((w.raise t column).cancel t).matrix t column = none := by
    have hfind : t.edges.find?
        (fun (_, c) => ((w.raise t column).cancel t).matrix.entry c column) = none := by
      refine List.find?_eq_none.mpr fun e he => ?_
      rw [Bool.not_eq_true]
      exact hcancel e he
    rw [lowerFault?, hroot, hfind]
    rfl
  refine yields_bind_of_exec (exec_raise t w column) ?_
  refine yields_bind_of_exec (exec_cancel t (w.raise t column)) ?_
  refine yields_matrix_bind ?_
  rw [hfault]
  refine yields_pure ⟨?_, hroot, hchildren⟩
  exact ((steps_raise w t column).mono fun _ _ => .inl).trans
    ((steps_cancel _ t).mono fun _ _ => .inr)

/-- What `lower` does to a work, whether it succeeds or not. -/
theorem work_lower (t : SteinerTree) (column : ℕ) (w : Work) :
    ((lower t column).exec w).2 = (w.raise t column).cancel t := by
  unfold lower
  rw [Script.exec_bind, exec_raise]
  dsimp only
  rw [Script.exec_bind, exec_cancel]
  dsimp only
  rw [Script.exec_bind, exec_matrix]
  dsimp only
  cases lowerFault? ((w.raise t column).cancel t).matrix t column <;> rfl

/-- **One row addition for every edge and one for every zero**, if every leaf holds a one. -/
theorem length_lower (h : Grows t.root t.edges) {M : ParityMatrix}
    (hlt : ∀ q ∈ t.nodes, q < M.rows) {column : ℕ}
    (hleaf : ∀ q ∈ t.nodes, M.entry q column = true ∨ ∃ d, (q, d) ∈ t.edges) :
    (rowAdditions ((lower t column).plan M).work.events).length =
      t.edges.length + t.nodes.countP (fun q => !M.entry q column) := by
  rw [plan_eq, work_lower, length_cancel, length_raise h column (Work.start M) hlt hleaf]
  simp [Work.start, Work.events, SteinerTree.nodes, Nat.add_comm]

/-! ## Fanning out -/

/-- An edge of the pruned tree is one of the tree. -/
theorem steps_along_prune (keep : ℕ → Bool) {a b : ℕ} (h : (t.prune keep).Along a b) :
    t.Along a b := by
  rcases h with h | h
  · exact .inl (SteinerTree.mem_edges_prune.mp h).1
  · exact .inr (SteinerTree.mem_edges_prune.mp h).1

/-- Upper elimination of a pruned tree follows that tree. -/
theorem proceeds_upperFrom (column fuel : ℕ) :
    ∀ t : SteinerTree, Proceeds t.Along (upperFrom column fuel t) := by
  induction fuel with
  | zero => exact fun t => proceeds_pure ()
  | succ fuel ih =>
    intro t
    unfold upperFrom
    split
    · exact proceeds_pure ()
    · refine (proceeds_spread t).bind fun _ => proceeds_matrix.bind fun M => ?_
      dsimp only
      split
      · exact proceeds_fail _
      · exact fun w => (ih _ w).mono fun a b => steps_along_prune _

/-- Upper elimination follows the tree. -/
theorem proceeds_upper (t : SteinerTree) (column : ℕ) : Proceeds t.Along (upper t column) := by
  refine proceeds_matrix.bind fun M => ?_
  split
  · exact proceeds_fail _
  · exact fun w => (proceeds_upperFrom column _ _ w).mono fun a b => steps_along_prune _

/-- The rows after a fan-out: the children with a one in the column took the root row. -/
def FannedOut (t : SteinerTree) (column : ℕ) (M N : ParityMatrix) : Prop :=
  ∀ q, N.row q =
    if q ∈ t.children ∧ M.entry q column = true then M.row q + M.row t.root else M.row q

/-- **One round and what follows it**: a round adds the root row into every child; the next rounds
add it once more where there was no one before. -/
theorem FannedOut.of_spread {column : ℕ} {keep : ℕ → Bool} (h : Grows t.root t.edges)
    (hlt : ∀ q ∈ t.nodes, q < w.matrix.rows) (hroot : w.matrix.entry t.root column = true)
    (hkeep : ∀ q, keep q = (q != t.root && (w.spread t).matrix.entry q column)) {N : ParityMatrix}
    (hN : FannedOut (t.prune keep) column (w.spread t).matrix N) :
    FannedOut t column w.matrix N := by
  have hrow := row_spread h w hlt
  have hrootRow : (w.spread t).matrix.row t.root = w.matrix.row t.root := by
    rw [hrow, if_neg (SteinerTree.root_notMem_children h)]
  intro q
  have hq := hN q
  rw [show (t.prune keep).root = t.root from rfl, hrootRow, hrow q] at hq
  rw [hq]
  by_cases hchild : q ∈ t.children
  · -- a child has its entry flipped by the round
    obtain ⟨e, he, rfl⟩ := List.mem_map.mp hchild
    have hflip : (w.spread t).matrix.entry e.2 column = !w.matrix.entry e.2 column :=
      (entry_spread h w hlt hroot e.2).trans (if_pos hchild)
    rw [if_pos hchild]
    cases hbit : w.matrix.entry e.2 column with
    | true =>
      rw [if_neg, if_pos ⟨hchild, rfl⟩]
      rintro ⟨_, hone⟩
      rw [hflip, hbit] at hone
      cases hone
    | false =>
      have hone : (w.spread t).matrix.entry e.2 column = true := by rw [hflip, hbit]; rfl
      have hkept : keep e.2 = true := by
        rw [hkeep, hone, Bool.and_true, bne_iff_ne]
        exact h.child_ne_root he
      have hmem : e.2 ∈ (t.prune keep).children := by
        refine SteinerTree.mem_children (t := t.prune keep) (e := e) ?_
        by_contra hpruned
        rw [SteinerTree.not_keep_of_pruned h he hpruned] at hkept
        cases hkept
      rw [if_pos ⟨hmem, hone⟩, if_neg (by simp), add_assoc, ZModModule.add_self, add_zero]
  · have hpruned : q ∉ (t.prune keep).children := by
      intro hmem
      obtain ⟨e, he, rfl⟩ := List.mem_map.mp hmem
      exact hchild (SteinerTree.mem_children (SteinerTree.mem_edges_prune.mp he).1)
    rw [if_neg hchild, if_neg fun hcond => hpruned hcond.1, if_neg fun hcond => hchild hcond.1]

/-- **Fanning out in rounds**: every round takes the leaves off, so the fuel is enough. -/
theorem upperFrom_yields {column : ℕ} (fuel : ℕ) :
    ∀ (t : SteinerTree) (w : Work), Grows t.root t.edges → (∀ q ∈ t.nodes, q < w.matrix.rows) →
      w.matrix.entry t.root column = true → t.edges.length ≤ fuel →
      (∀ e ∈ t.edges, w.matrix.entry e.2 column = true ∨ ∃ d, (e.2, d) ∈ t.edges) →
      Yields F (upperFrom column fuel t) w fun _ w' =>
        Steps t.Along w w' ∧ FannedOut t column w.matrix w'.matrix := by
  -- without edges there is nothing to do
  have hdone : ∀ (t : SteinerTree) (w : Work), t.edges = [] →
      Steps t.Along w w ∧ FannedOut t column w.matrix w.matrix := by
    intro t w hempty
    refine ⟨Steps.refl w, fun q => ?_⟩
    rw [if_neg]
    rintro ⟨hq, _⟩
    rw [SteinerTree.children, hempty] at hq
    cases hq
  induction fuel with
  | zero =>
    intro t w _ _ _ hfuel _
    exact yields_pure (hdone t w (List.eq_nil_of_length_eq_zero (by omega)))
  | succ fuel ih =>
    intro t w h hlt hroot hfuel hleaf
    unfold upperFrom
    by_cases hempty : t.edges = []
    · rw [if_pos (List.isEmpty_iff.mpr hempty)]
      exact yields_pure (hdone t w hempty)
    · rw [if_neg fun hemp => hempty (List.isEmpty_iff.mp hemp)]
      refine yields_bind_of_exec (exec_spread t w) ?_
      refine yields_matrix_bind ?_
      dsimp only
      have hsteps := steps_spread w t
      have hentry := entry_spread h w hlt hroot
      -- a leaf held a one, so it is not kept
      have hlen :
          (t.prune fun q => q != t.root && (w.spread t).matrix.entry q column).edges.length <
          t.edges.length := by
        obtain ⟨e, he⟩ := List.exists_mem_of_ne_nil _ hempty
        obtain ⟨l, hl, _⟩ := SteinerTree.exists_leaf h (SteinerTree.mem_children he)
        refine SteinerTree.length_prune_lt h hl ?_
        obtain ⟨hchild, hlast⟩ := hl
        obtain ⟨e, he, rfl⟩ := List.mem_map.mp hchild
        have hone : w.matrix.entry e.2 column = true :=
          (hleaf e he).resolve_right fun ⟨d, hd⟩ => hlast d hd
        rw [hentry, if_pos hchild, hone, Bool.not_true, Bool.and_false]
      rw [if_neg (Nat.not_le_of_lt hlen)]
      have hrootEntry : (w.spread t).matrix.entry t.root column = true := by
        rw [hentry, if_neg (SteinerTree.root_notMem_children h), hroot]
      refine (ih _ (w.spread t) (SteinerTree.grows_prune h _) ?_ hrootEntry (by omega) ?_).mono ?_
      · intro q hq
        rw [hsteps.rows_eq]
        exact hlt q (SteinerTree.mem_nodes_of_mem_prune hq)
      · intro e he
        rcases SteinerTree.keep_of_leaf_prune h he with hkeep | hchild
        · exact .inl (Bool.and_eq_true_iff.mp hkeep).2
        · exact .inr hchild
      · rintro _ w' ⟨hsteps', hfan⟩
        refine ⟨(hsteps.mono fun _ _ => .inr).trans
          (hsteps'.mono fun a b => steps_along_prune _), ?_⟩
        exact hfan.of_spread h hlt hroot fun q => rfl

/-- **Adding the root row** into exactly the nodes that hold a one. -/
theorem upper_yields (h : Grows t.root t.edges) (hlt : ∀ q ∈ t.nodes, q < w.matrix.rows)
    {column : ℕ} (hroot : w.matrix.entry t.root column = true) :
    Yields F (upper t column) w fun _ w' =>
      Steps t.Along w w' ∧ FannedOut t column w.matrix w'.matrix := by
  refine yields_matrix_bind ?_
  rw [if_neg (by rw [hroot]; decide)]
  have hlen : (t.prune fun q => w.matrix.entry q column).edges.length ≤ t.edges.length :=
    List.length_filter_le _ _
  refine (upperFrom_yields t.edges.length (t.prune fun q => w.matrix.entry q column) w
    (SteinerTree.grows_prune h _) ?_ hroot hlen ?_).mono ?_
  · exact fun q hq => hlt q (SteinerTree.mem_nodes_of_mem_prune hq)
  · exact fun e he => SteinerTree.keep_of_leaf_prune h he
  · rintro _ w' ⟨hsteps, hfan⟩
    refine ⟨hsteps.mono fun a b => steps_along_prune _, fun q => (hfan q).trans ?_⟩
    -- what pruning took off held no one
    refine if_congr ⟨?_, ?_⟩ rfl rfl
    · rintro ⟨hq, hone⟩
      obtain ⟨e, he, rfl⟩ := List.mem_map.mp hq
      exact ⟨SteinerTree.mem_children (SteinerTree.mem_edges_prune.mp he).1, hone⟩
    · rintro ⟨hq, hone⟩
      obtain ⟨e, he, rfl⟩ := List.mem_map.mp hq
      refine ⟨SteinerTree.mem_children (t := t.prune _) (e := e) ?_, hone⟩
      by_contra hpruned
      rw [SteinerTree.not_keep_of_pruned h he hpruned] at hone
      cases hone

end Reduction

end CnotSynthesis
