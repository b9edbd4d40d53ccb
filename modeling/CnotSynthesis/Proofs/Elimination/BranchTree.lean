import CnotSynthesis.Proofs.Elimination.Solving
import CnotSynthesis.Proofs.Sorting

/-! # Best-first elimination is optimal among its branches

The partial eliminations form a tree: a partial elimination branches by the pairs tried from it, and
its leaves are the complete ones. A search that takes the cheapest one further first ends, if it
ends at a leaf, at a cheapest leaf.

* **`branchPairs`** — the pairs by which a partial elimination branches; **`pairsTried_eq`** — they
  are the pairs tried.
* **`LeafCost`** — the row additions on the way to a leaf; **`leafCost_eliminateFrom`** — the greedy
  elimination is one of the ways.
* **`lastProspect`** — the prospect at which a search ends; **`bestFirstFrom_eq`** — what the search
  returns is that prospect, finished.
* **`Frontier`** — the invariant of a search: every leaf lies below a prospect that waits.
* **`bestFirst_optimal`** — the result. -/

namespace CnotSynthesis

open Work ParityMatrix

variable {G : CouplingGraph} {choose : PairStrategy} {width : ℕ}

/-! ## The branch tree -/

/-- **The pairs by which a partial elimination branches**: the first distinct ones, the strategy's
own choice before those by weight. -/
def branchPairs (G : CouplingGraph) (choose : PairStrategy) (width : ℕ) (M : ParityMatrix)
    (p : Remaining) : List (ℕ × ℕ) :=
  ((choose M p (G.removable p.rows)).toList ++
    pairsByWeight M p (G.removable p.rows)).eraseDups.take (max width 1)

/-- **The way to a leaf**: `k` row additions lead from `M`, with `p` remaining, to a complete
elimination, by pairs of the branch tree. -/
inductive LeafCost (G : CouplingGraph) (choose : PairStrategy) (width : ℕ) :
    ParityMatrix → Remaining → ℕ → Prop
  | complete {M p} : p.rows.length ≤ 1 → LeafCost G choose width M p 0
  | branch {M p pair w k} : 1 < p.rows.length → pair ∈ branchPairs G choose width M p →
      (Reduction.clearPair G pair.1 pair.2 p).exec (Work.start M) = (.ok (), w) →
      LeafCost G choose width w.matrix (p.remove pair.1 pair.2) k →
      LeafCost G choose width M p ((rowAdditions w.events).length + k)

/-- The pairs by weight are distinct. -/
theorem nodup_pairsByWeight (M : ParityMatrix) (p : Remaining) (candidates : List ℕ) :
    (pairsByWeight M p candidates).Nodup := by
  refine List.Nodup.map_on ?_ (nodup_sortDistinct (orders_lex orders_lt orders_pairBefore) _)
  intro x hx y hy hxy
  -- the weight goes with the pair
  obtain ⟨row, _, hx⟩ := List.mem_flatMap.mp (mem_sortDistinct.mp hx)
  obtain ⟨column, _, rfl⟩ := List.mem_map.mp hx
  obtain ⟨row', _, hy⟩ := List.mem_flatMap.mp (mem_sortDistinct.mp hy)
  obtain ⟨column', _, rfl⟩ := List.mem_map.mp hy
  cases hxy
  rfl

/-- Without repetitions there is nothing to erase. -/
theorem eraseDups_of_nodup {α : Type} [BEq α] [LawfulBEq α] {l : List α} (h : l.Nodup) :
    l.eraseDups = l := by
  induction l with
  | nil => rfl
  | cons a l ih =>
    obtain ⟨ha, hl⟩ := List.nodup_cons.mp h
    have hfilter : (l.filter fun b => !b == a) = l := by
      refine List.filter_eq_self.mpr fun b hb => ?_
      have hne : b ≠ a := fun heq => ha (heq ▸ hb)
      simp [hne]
    rw [List.eraseDups_cons, hfilter, ih hl]

/-- **The pairs tried are those by which the elimination branches.** -/
theorem pairsTried_eq (G : CouplingGraph) (choose : PairStrategy) (width : ℕ) (M : ParityMatrix)
    (p : Remaining) : pairsTried G choose width M p = branchPairs G choose width M p := by
  have hnodup := nodup_pairsByWeight M p (G.removable p.rows)
  unfold pairsTried branchPairs
  dsimp only
  cases choose M p (G.removable p.rows) with
  | none => simp [eraseDups_of_nodup hnodup]
  | some pair =>
    have htest : (fun other => !List.contains [pair] other) = fun other => !other == pair := by
      funext other
      simp only [List.contains_cons, List.contains_nil, Bool.or_false]
    rw [Option.toList_some, List.singleton_append, List.singleton_append, List.eraseDups_cons,
      eraseDups_of_nodup (hnodup.filter _), htest]

/-- The strategy's choice is one of the pairs. -/
theorem mem_branchPairs_of_choose {M : ParityMatrix} {p : Remaining} {pair : ℕ × ℕ}
    (h : choose M p (G.removable p.rows) = some pair) : pair ∈ branchPairs G choose width M p := by
  unfold branchPairs
  rw [h, Option.toList_some, List.singleton_append, List.eraseDups_cons,
    show max width 1 = (max width 1 - 1) + 1 by omega, List.take_succ_cons]
  exact List.mem_cons_self

/-! ## The greedy way -/

/-- Eliminating what is left of a complete elimination adds no rows. -/
theorem exec_eliminateFrom_of_complete {fuel : ℕ} {p final : Remaining} {w w' : Work}
    (hcomplete : p.rows.length ≤ 1)
    (h : (Reduction.eliminateFrom G choose fuel p).exec w = (.ok final, w')) :
    rowAdditions w'.events = rowAdditions w.events := by
  have hfinish : Reduction.eliminateFrom G choose fuel p = Reduction.finish p := by
    cases fuel with
    | zero => rfl
    | succ fuel => exact if_pos hcomplete
  have hsteps := Reduction.proceeds_finish (E := fun _ _ => False) p w
  rw [← hfinish, h] at hsteps
  -- no row addition is allowed, so there is none
  obtain ⟨ops, hops, hevents, _⟩ := hsteps.exists_addRows
  have hnil : ops = [] := List.eq_nil_iff_forall_not_mem.mpr hops
  rw [hevents, hnil, List.append_nil]

/-- How an elimination of several rows goes on: a pair is chosen and cleared, then the others
are. -/
theorem exec_eliminateFrom_succ {fuel : ℕ} {p final : Remaining} {w w' : Work}
    (hlong : ¬ p.rows.length ≤ 1)
    (h : (Reduction.eliminateFrom G choose (fuel + 1) p).exec w = (.ok final, w')) :
    ∃ pair w₁, choose w.matrix p (G.removable p.rows) = some pair ∧
      (Reduction.clearPair G pair.1 pair.2 p).exec w = (.ok (), w₁) ∧
      (Reduction.eliminateFrom G choose fuel (p.remove pair.1 pair.2)).exec
        (w₁.note (.vertex pair.1 pair.2)) = (.ok final, w') := by
  unfold Reduction.eliminateFrom at h
  rw [if_neg hlong, Script.exec_bind, Reduction.exec_matrix] at h
  dsimp only at h
  cases hchoose : choose w.matrix p (G.removable p.rows) with
  | none =>
    rw [hchoose] at h
    cases h
  | some pair =>
    rw [hchoose] at h
    dsimp only at h
    rw [Script.exec_bind] at h
    rcases hpair : (Reduction.clearPair G pair.1 pair.2 p).exec w with ⟨_ | _, w₁⟩
    · rw [hpair] at h
      cases h
    · rw [hpair] at h
      exact ⟨pair, w₁, rfl, hpair, h⟩

/-- **Only a remaining row can be cleared.** -/
theorem mem_rows_of_clearPair {p : Remaining} {row column : ℕ} {w w' : Work}
    (h : (Reduction.clearPair G row column p).exec w = (.ok (), w')) : row ∈ p.rows := by
  have hcolumn : Reduction.Yields True (Reduction.clearColumn G row column p.rows) w
      fun _ _ => row ∈ p.rows := by
    refine Reduction.yields_matrix_bind ?_
    dsimp only
    cases hstray : (w.matrix.colOnes column).find? fun r => !p.rows.contains r with
    | some stray => trivial
    | none =>
      dsimp only
      generalize (if (w.matrix.colOnes column).contains row then w.matrix.colOnes column
        else w.matrix.colOnes column ++ [row]) = terminals
      split
      · -- there is a tree, so its root remains
        refine Reduction.yields_attempt_bind (fun _ _ => trivial) fun t ht => ?_
        obtain ⟨hspans, hroot, _⟩ := CouplingGraph.steinerTree_ok ht
        exact Reduction.yields_of_forall fun _ _ => hroot ▸ hspans.allowed t.root List.mem_cons_self
      · split
        · next hone =>
          have hmem := List.find?_eq_none.mp hstray row (mem_colOnes.mpr hone)
          exact Reduction.yields_pure (by simpa using hmem)
        · trivial
  have hpair : Reduction.Yields True (Reduction.clearPair G row column p) w
      fun _ _ => row ∈ p.rows :=
    hcolumn.bind fun _ _ hmem => Reduction.yields_of_forall fun _ _ => hmem
  exact hpair.of_exec_ok h

/-- **The greedy elimination is one of the ways to a leaf.** -/
theorem leafCost_eliminateFrom (fuel : ℕ) :
    ∀ {M : ParityMatrix} {p final : Remaining} {w : Work}, p.rows.length ≤ fuel →
      (Reduction.eliminateFrom G choose fuel p).exec (Work.start M) = (.ok final, w) →
      LeafCost G choose width M p (rowAdditions w.events).length := by
  induction fuel with
  | zero =>
    intro M p final w hfuel h
    have hcomplete : p.rows.length ≤ 1 := by omega
    rw [exec_eliminateFrom_of_complete hcomplete h]
    exact .complete hcomplete
  | succ fuel ih =>
    intro M p final w hfuel h
    by_cases hcomplete : p.rows.length ≤ 1
    · rw [exec_eliminateFrom_of_complete hcomplete h]
      exact .complete hcomplete
    · obtain ⟨pair, w₁, hchoose, hpair, hrest⟩ := exec_eliminateFrom_succ hcomplete h
      -- the rest of the elimination is that of the matrix as it stands
      have hlog := Script.rowAdditions_exec
        (Reduction.eliminateFrom G choose fuel (p.remove pair.1 pair.2))
        (w₁.note (.vertex pair.1 pair.2))
      have hfresh : ((Reduction.eliminateFrom G choose fuel (p.remove pair.1 pair.2)).exec
          (Work.start w₁.matrix)).1 = .ok final := by
        rw [Script.exec_eq] at hrest
        exact (Prod.ext_iff.mp hrest).1
      rw [hrest, rowAdditions_note rfl] at hlog
      have hshorter : (p.rows.filter (· != pair.1)).length < p.rows.length :=
        List.length_filter_lt_length_iff_exists.mpr ⟨pair.1, mem_rows_of_clearPair hpair, by simp⟩
      rw [hlog, List.length_append]
      refine .branch (by omega) (mem_branchPairs_of_choose hchoose) hpair
        (ih ?_ (Prod.ext hfresh rfl))
      show (p.rows.filter (· != pair.1)).length ≤ fuel
      omega

/-! ## Prospects and their offshoots -/

/-- How a prospect comes from another one, and what it costs more. -/
theorem Prospect.child_cost {p q : Prospect} {number : ℕ} {pair : ℕ × ℕ}
    (h : p.child G number pair = .ok q) :
    ∃ w, (Reduction.clearPair G pair.1 pair.2 p.remaining).exec (Work.start p.matrix) =
        (.ok (), w) ∧ q.matrix = w.matrix ∧ q.remaining = p.remaining.remove pair.1 pair.2 ∧
      q.cost = p.cost + (rowAdditions w.events).length := by
  obtain ⟨w, hexec, hmatrix, hcircuit, hremaining, _⟩ := Prospect.child_ok h
  refine ⟨w, hexec, hmatrix, hremaining, ?_⟩
  unfold Prospect.cost
  rw [hcircuit, Circuit.count_prepend]

/-- An offshoot has the number it was given. -/
theorem Prospect.child_number {p q : Prospect} {number : ℕ} {pair : ℕ × ℕ}
    (h : p.child G number pair = .ok q) : q.number = number := by
  obtain ⟨_, _, _, _, _, hnumber⟩ := Prospect.child_ok h
  exact hnumber

/-- **The offshoots of a prospect**: one for every pair, with consecutive numbers. -/
theorem offshoots_ok {p : Prospect} (pairs : List (ℕ × ℕ)) :
    ∀ {number : ℕ} {children : List Prospect}, offshoots G p number pairs = .ok children →
      (∀ q ∈ children, ∃ pair ∈ pairs, ∃ k, p.child G k pair = .ok q) ∧
      (∀ pair ∈ pairs, ∃ q ∈ children, ∃ k, p.child G k pair = .ok q) ∧
      children.map (·.number) = List.range' number children.length := by
  induction pairs with
  | nil =>
    rintro number children ⟨⟩
    simp
  | cons pair pairs ih =>
    intro number children h
    obtain ⟨q, rest, hchild, hrest, rfl⟩ := offshoots_cons_ok h
    obtain ⟨hfrom, hto, hnumbers⟩ := ih hrest
    refine ⟨List.forall_mem_cons.mpr ⟨⟨pair, List.mem_cons_self, number, hchild⟩, ?_⟩,
      List.forall_mem_cons.mpr ⟨⟨q, List.mem_cons_self, number, hchild⟩, ?_⟩, ?_⟩
    · intro r hr
      obtain ⟨pair', hpair', k, hk⟩ := hfrom r hr
      exact ⟨pair', List.mem_cons_of_mem _ hpair', k, hk⟩
    · intro pair' hpair'
      obtain ⟨r, hr, k, hk⟩ := hto pair' hpair'
      exact ⟨r, List.mem_cons_of_mem _ hr, k, hk⟩
    · rw [List.map_cons, hnumbers, Prospect.child_number hchild, List.length_cons,
        List.range'_succ]

/-! ## The search -/

/-- **The prospect at which a search ends**, at a leaf or because its budget is spent. -/
def lastProspect (G : CouplingGraph) (choose : PairStrategy) (width : ℕ) :
    ℕ → ℕ → List Prospect → Except SynthesisError Prospect
  | budget, made, waiting =>
    match leastBy Prospect.before waiting with
    | none => .error (.structural .outOfStates)
    | some p =>
      match budget with
      | 0 => .ok p
      | budget + 1 =>
        if p.remaining.rows.length ≤ 1 then .ok p
        else do
          let children ← offshoots G p made (pairsTried G choose width p.matrix p.remaining)
          let others := waiting.filter fun other => other.number != p.number
          lastProspect G choose width budget (made + children.length) (others ++ children)

/-- **A search returns its last prospect, finished.** -/
theorem bestFirstFrom_eq (budget : ℕ) : ∀ (made : ℕ) (waiting : List Prospect),
    bestFirstFrom G choose width budget made waiting =
      lastProspect G choose width budget made waiting >>= fun p => p.settle G choose := by
  induction budget with
  | zero =>
    intro made waiting
    unfold bestFirstFrom lastProspect
    cases leastBy Prospect.before waiting <;> rfl
  | succ budget ih =>
    intro made waiting
    unfold bestFirstFrom lastProspect
    cases leastBy Prospect.before waiting with
    | none => rfl
    | some p =>
      dsimp only
      split
      · rfl
      · cases offshoots G p made (pairsTried G choose width p.matrix p.remaining) with
        | error e => rfl
        | ok children => exact ih _ _

/-- **The invariant of a search**: the leaves below the prospects that wait are the leaves of the
whole tree, and the numbers tell the prospects apart. -/
structure Frontier (G : CouplingGraph) (choose : PairStrategy) (width : ℕ) (M : ParityMatrix)
    (made : ℕ) (waiting : List Prospect) : Prop where
  leaf : ∀ p ∈ waiting, ∀ k, LeafCost G choose width p.matrix p.remaining k →
    LeafCost G choose width M (Remaining.start M.rows) (p.cost + k)
  covers : ∀ k, LeafCost G choose width M (Remaining.start M.rows) k →
    ∃ p ∈ waiting, ∃ j, LeafCost G choose width p.matrix p.remaining j ∧ p.cost + j = k
  numbers : (waiting.map (·.number)).Nodup
  below : ∀ p ∈ waiting, p.number < made

variable {M : ParityMatrix} {made : ℕ} {waiting : List Prospect} {p : Prospect}

/-- At first the root of the tree is all that waits. -/
theorem frontier_start (G : CouplingGraph) (choose : PairStrategy) (width : ℕ) (M : ParityMatrix) :
    Frontier G choose width M 1 [Prospect.start M] where
  leaf := by
    intro p hp k hk
    rw [List.mem_singleton.mp hp] at hk ⊢
    show LeafCost G choose width M (Remaining.start M.rows) (0 + k)
    rwa [Nat.zero_add]
  covers := fun k hk => ⟨_, List.mem_singleton_self _, k, hk, Nat.zero_add k⟩
  numbers := List.nodup_singleton _
  below := by
    intro p hp
    rw [List.mem_singleton.mp hp]
    exact Nat.zero_lt_one

/-- **Taking a prospect further keeps the frontier**: the leaves below it are those below its
offshoots. -/
theorem Frontier.expand (h : Frontier G choose width M made waiting) (hp : p ∈ waiting)
    (hlong : ¬ p.remaining.rows.length ≤ 1) {children : List Prospect}
    (hchildren : offshoots G p made (pairsTried G choose width p.matrix p.remaining) =
      .ok children) :
    Frontier G choose width M (made + children.length)
      ((waiting.filter fun other => other.number != p.number) ++ children) := by
  obtain ⟨hfrom, hto, hnumbers⟩ := offshoots_ok _ hchildren
  rw [pairsTried_eq] at hfrom hto
  have hnew : ∀ q ∈ children, made ≤ q.number ∧ q.number < made + children.length := by
    intro q hq
    have hmem : q.number ∈ children.map (·.number) := List.mem_map_of_mem hq
    rw [hnumbers] at hmem
    exact List.mem_range'_1.mp hmem
  refine ⟨?_, ?_, ?_, ?_⟩
  · intro q hq k hk
    rcases List.mem_append.mp hq with hq | hq
    · exact h.leaf q (List.mem_filter.mp hq).1 k hk
    · obtain ⟨pair, hpair, number, hchild⟩ := hfrom q hq
      obtain ⟨w, hexec, hmatrix, hremaining, hcost⟩ := Prospect.child_cost hchild
      rw [hmatrix, hremaining] at hk
      rw [hcost, Nat.add_assoc]
      exact h.leaf p hp _ (.branch (by omega) hpair hexec hk)
  · intro k hk
    obtain ⟨q, hq, j, hj, rfl⟩ := h.covers k hk
    by_cases hqp : q.number = p.number
    · -- the leaf lies below the prospect taken further, so below one of its offshoots
      have hq : q = p := List.inj_on_of_nodup_map h.numbers hq hp hqp
      rw [hq] at hj ⊢
      cases hj with
      | complete hcomplete => exact absurd hcomplete hlong
      | @branch _ _ pair w j _ hpair hexec hrest =>
        obtain ⟨r, hr, number, hchild⟩ := hto pair hpair
        obtain ⟨w', hexec', hmatrix, hremaining, hcost⟩ := Prospect.child_cost hchild
        obtain rfl : w = w' := (Prod.ext_iff.mp (hexec.symm.trans hexec')).2
        refine ⟨r, List.mem_append_right _ hr, j, ?_, by omega⟩
        rwa [hmatrix, hremaining]
    · exact ⟨q, List.mem_append_left _ (List.mem_filter.mpr ⟨hq, by simpa using hqp⟩), j, hj, rfl⟩
  · rw [List.map_append, List.nodup_append]
    refine ⟨h.numbers.sublist (List.filter_sublist.map _), ?_, ?_⟩
    · rw [hnumbers]
      exact List.nodup_range'
    · rintro a ha b hb rfl
      obtain ⟨q, hq, rfl⟩ := List.mem_map.mp ha
      obtain ⟨r, hr, hrq⟩ := List.mem_map.mp hb
      have := h.below q (List.mem_filter.mp hq).1
      have := (hnew r hr).1
      omega
  · intro q hq
    rcases List.mem_append.mp hq with hq | hq
    · have := h.below q (List.mem_filter.mp hq).1
      omega
    · exact (hnew q hq).2

/-- **Where a search ends**: at the least prospect of a frontier. -/
theorem Frontier.last (budget : ℕ) : ∀ {made : ℕ} {waiting : List Prospect},
    Frontier G choose width M made waiting →
    lastProspect G choose width budget made waiting = .ok p →
    ∃ made' waiting', Frontier G choose width M made' waiting' ∧
      leastBy Prospect.before waiting' = some p := by
  induction budget with
  | zero =>
    intro made waiting h hlast
    unfold lastProspect at hlast
    cases hleast : leastBy Prospect.before waiting with
    | none =>
      rw [hleast] at hlast
      cases hlast
    | some q =>
      rw [hleast] at hlast
      cases hlast
      exact ⟨made, waiting, h, hleast⟩
  | succ budget ih =>
    intro made waiting h hlast
    unfold lastProspect at hlast
    cases hleast : leastBy Prospect.before waiting with
    | none =>
      rw [hleast] at hlast
      cases hlast
    | some q =>
      rw [hleast] at hlast
      dsimp only at hlast
      split at hlast
      · cases hlast
        exact ⟨made, waiting, h, hleast⟩
      · next hlong =>
        cases hchildren : offshoots G q made
            (pairsTried G choose width q.matrix q.remaining) with
        | error e =>
          rw [hchildren] at hlast
          cases hlast
        | ok children =>
          rw [hchildren] at hlast
          exact ih (h.expand (leastBy_mem hleast) hlong hchildren) hlast

/-- The least prospect is a cheapest one. -/
theorem cost_le_of_leastBy (h : leastBy Prospect.before waiting = some p) :
    ∀ q ∈ waiting, p.cost ≤ q.cost := by
  refine leastBy_le ?_ ?_ h
  · intro a b hab
    simp only [Prospect.before, Bool.or_eq_true, Bool.and_eq_true, decide_eq_true_eq,
      beq_iff_eq] at hab
    omega
  · intro a b hab
    simp only [Prospect.before, Bool.or_eq_false_iff, decide_eq_false_iff_not] at hab
    omega

/-- **A search that ends at a leaf ends at a cheapest one.** -/
theorem Frontier.isLeast_cost (h : Frontier G choose width M made waiting)
    (hleast : leastBy Prospect.before waiting = some p)
    (hcomplete : p.remaining.rows.length ≤ 1) :
    IsLeast {k | LeafCost G choose width M (Remaining.start M.rows) k} p.cost := by
  constructor
  · exact h.leaf p (leastBy_mem hleast) 0 (.complete hcomplete)
  · intro k hk
    obtain ⟨q, hq, j, _, rfl⟩ := h.covers k hk
    exact (cost_le_of_leastBy hleast q hq).trans (Nat.le_add_right _ _)

/-! ## Whole eliminations -/

/-- A complete prospect is finished without further row additions. -/
theorem Prospect.settle_complete {ops : List RowAddition} {output : List ℕ}
    (hcomplete : p.remaining.rows.length ≤ 1) (h : p.settle G choose = .ok (ops, output)) :
    ops.length = p.cost := by
  obtain ⟨final, w, hexec, rfl, _⟩ := Prospect.settle_ok h
  have hnone : rowAdditions w.events = [] := exec_eliminateFrom_of_complete hcomplete hexec
  rw [hnone, List.append_nil, p.length_additions]

namespace Reduction

/-- Row additions carried out one after the other are logged one after the other. -/
theorem rowAdditions_addRows (ops : List RowAddition) (w : Work) :
    rowAdditions (ops.foldl (fun w op => w.addRow op.target op.source) w).events =
      rowAdditions w.events ++ ops := by
  induction ops generalizing w with
  | nil => simp
  | cons op ops ih =>
    rw [List.foldl_cons, ih, rowAdditions_addRow, List.append_assoc]
    rfl

/-- Noting the pairs adds no rows. -/
theorem rowAdditions_foldl_note (xs : List (ℕ × ℕ)) (w : Work) :
    rowAdditions (xs.foldl (fun w x => w.note (.vertex x.1 x.2)) w).events =
      rowAdditions w.events := by
  induction xs generalizing w with
  | nil => rfl
  | cons x xs ih =>
    rw [List.foldl_cons, ih]
    exact rowAdditions_note rfl w

variable {G? : Option CouplingGraph}

/-- **A best-first elimination carries out what the search found**, then takes note of the pairs. -/
theorem exec_permRowCol_some {settings : BestFirst} {ops : List RowAddition}
    {output : List ℕ} (hM : M.IsInvertible) (hG : graphFor G? M.rows = .ok G)
    (h : bestFirst G choose settings M = .ok (ops, output)) :
    (permRowCol choose (some settings) G?).exec (Work.start M) =
      (.ok output, output.zipIdx.foldl (fun w x => w.note (.vertex x.1 x.2))
        (ops.foldl (fun w op => w.addRow op.target op.source) (Work.start M))) := by
  unfold permRowCol
  rw [exec_checked (w := Work.start M) hM hG]
  dsimp only
  rw [Script.exec_bind, exec_matrix]
  dsimp only
  rw [Script.exec_bind, exec_lift]
  have h : bestFirst G choose settings (Work.start M).matrix = .ok (ops, output) := h
  rw [h]
  dsimp only
  rw [Script.exec_bind, exec_addRows]
  dsimp only
  rw [Script.exec_bind, exec_reportPairs]
  rfl

/-- The row additions of a best-first elimination. -/
theorem rowAdditions_permRowCol_some {settings : BestFirst} {ops : List RowAddition}
    {output : List ℕ} (hM : M.IsInvertible) (hG : graphFor G? M.rows = .ok G)
    (h : bestFirst G choose settings M = .ok (ops, output)) :
    rowAdditions ((permRowCol choose (some settings) G?).plan M).work.events = ops := by
  rw [plan_eq, exec_permRowCol_some hM hG h]
  dsimp only
  rw [rowAdditions_foldl_note, rowAdditions_addRows]
  rfl

/-- **A greedy elimination eliminates all pairs** that are chosen. -/
theorem exec_permRowCol_none (hM : M.IsInvertible) (hG : graphFor G? M.rows = .ok G) :
    (permRowCol choose none G?).exec (Work.start M) =
      (((eliminateAll G choose (Remaining.start M.rows)).exec (Work.start M)).1.map (·.output),
        ((eliminateAll G choose (Remaining.start M.rows)).exec (Work.start M)).2) := by
  unfold permRowCol
  rw [exec_checked (w := Work.start M) hM hG]
  dsimp only
  rw [Script.exec_bind, show (Work.start M).matrix.rows = M.rows from rfl]
  rcases (eliminateAll G choose (Remaining.start M.rows)).exec (Work.start M) with
    ⟨_ | final, w⟩ <;> rfl

/-- A greedy elimination that succeeds has eliminated them all. -/
theorem exec_eliminateAll_of_ok {output : List ℕ} (hM : M.IsInvertible)
    (hG : graphFor G? M.rows = .ok G)
    (h : ((permRowCol choose none G?).plan M).outcome = .ok output) :
    ∃ final, (eliminateAll G choose (Remaining.start M.rows)).exec (Work.start M) =
      (.ok final, ((permRowCol choose none G?).plan M).work) := by
  rw [plan_eq, exec_permRowCol_none hM hG] at h ⊢
  rcases hexec : (eliminateAll G choose (Remaining.start M.rows)).exec (Work.start M) with
    ⟨_ | final, w⟩
  · rw [hexec] at h
    cases h
  · exact ⟨final, rfl⟩

end Reduction

namespace Method

variable {row : RowStrategy} {column : ColumnStrategy} {G? : Option CouplingGraph}

/-- The circuit of a free vertex elimination has a gate for every row addition. -/
theorem length_gates_permute (search : Option BestFirst) {output : List ℕ}
    (h : ((Reduction.permRowCol (freePair row column) search G?).plan M).outcome = .ok output) :
    ∃ c, (permute row column search G? M (some (Circuit.empty M.rows))).outcome = .ok output ∧
      (permute row column search G? M (some (Circuit.empty M.rows))).circuit = some c ∧
      c.gates.length = (rowAdditions
        ((Reduction.permRowCol (freePair row column) search G?).plan M).work.events).length := by
  rw [permute_eq row column search (by simp [Circuit.empty]), h]
  refine ⟨_, rfl, rfl, ?_⟩
  simp [Circuit.prepend, Circuit.empty]

/-- **Best-first elimination is optimal among its branches.** If the search ends at a complete
elimination, its circuit has as few gates as any way to a leaf of the branch tree takes row
additions; the greedy circuit has at least as many. The row strategy must choose a candidate, and
the column strategy a remaining column at least when the row holds a one in one of them. -/
theorem bestFirst_optimal
    (hrow : ∀ N candidates columns, candidates ≠ [] →
      ∃ r ∈ candidates, row N candidates columns = some r)
    (hcolumn : ∀ N r rows columns, (∃ c ∈ columns, N.entry r c = true) →
      ∃ c ∈ columns, column N r rows columns = some c)
    (hM : M.IsInvertible) (hG : ∀ G ∈ G?, G.size = M.rows ∧ G.isConnected = true)
    (hgraph : graphFor G? M.rows = .ok G) (settings : BestFirst)
    (hlast : lastProspect G (freePair row column) settings.width settings.budget 1
      [Prospect.start M] = .ok p)
    (hcomplete : p.remaining.rows.length ≤ 1) :
    let best := permute row column (some settings) G? M (some (Circuit.empty M.rows))
    let greedy := permute row column none G? M (some (Circuit.empty M.rows))
    ∃ output c output' c', best.outcome = .ok output ∧ best.circuit = some c ∧
      IsLeast {k | LeafCost G (freePair row column) settings.width M (Remaining.start M.rows) k}
        c.gates.length ∧
      greedy.outcome = .ok output' ∧ greedy.circuit = some c' ∧
      c.gates.length ≤ c'.gates.length := by
  intro best greedy
  obtain ⟨G', hgraph', hsuits⟩ : ∃ G, graphFor G? M.rows = .ok G ∧ G.Suits .byGraph M.rows :=
    graphFor_suits fun G h => CouplingGraph.suits_byGraph (hG G h).1 (hG G h).2
  obtain rfl : G' = G := Except.ok.inj (hgraph'.symm.trans hgraph)
  have hguides : (freePair row column).Guides G' fun _ => True := guides_of_picks G' hrow hcolumn
  have hok : ∀ search, ∃ output,
      ((Reduction.permRowCol (freePair row column) search G?).plan M).outcome = .ok output :=
    fun search => (Reduction.permRowCol_yields (F := False) (w := Work.start M) (fun _ => hguides)
      search hM hgraph hsuits.size_eq fun _ => hsuits.connected).exists_ok not_false
  -- the row additions of the search are those of its last prospect
  obtain ⟨output, hbest⟩ := hok (some settings)
  obtain ⟨c, houtcome, hcircuit, hlength⟩ := length_gates_permute (some settings) hbest
  have hsearch : bestFirst G' (freePair row column) settings M =
      p.settle G' (freePair row column) := by
    show bestFirstFrom G' (freePair row column) settings.width settings.budget 1
      [Prospect.start M] = _
    rw [bestFirstFrom_eq, hlast]
    rfl
  obtain ⟨found, hfound, _⟩ := (bestFirst_gives (F := False) (fun _ => hguides) settings hM
    hsuits.size_eq fun _ => hsuits.connected).exists_ok not_false
  have hcost : c.gates.length = p.cost := by
    rw [hlength, Reduction.rowAdditions_permRowCol_some hM hgraph hfound]
    exact Prospect.settle_complete hcomplete (hsearch.symm.trans hfound)
  obtain ⟨made, waiting, hfrontier, hleast⟩ :=
    (frontier_start G' (freePair row column) settings.width M).last settings.budget hlast
  have hoptimal := hfrontier.isLeast_cost hleast hcomplete
  -- the greedy elimination is one of the ways to a leaf
  obtain ⟨output', hgreedy⟩ := hok none
  obtain ⟨c', houtcome', hcircuit', hlength'⟩ := length_gates_permute none hgreedy
  obtain ⟨final, hexec⟩ := Reduction.exec_eliminateAll_of_ok hM hgraph hgreedy
  refine ⟨output, c, output', c', houtcome, hcircuit, hcost ▸ hoptimal, houtcome', hcircuit', ?_⟩
  rw [hcost, hlength']
  exact hoptimal.2 (leafCost_eliminateFrom _ le_rfl hexec)

/-- The lightest row and the lightest column for it, on a line of three qubits. -/
theorem bestFirst_optimal_line :
    let G := CouplingGraph.line 3
    let M := (identity 3).addRow 0 1
    let choose := freePair lightestRow lightestColumn
    let run search := permute lightestRow lightestColumn search (some G) M (some (Circuit.empty 3))
    M.IsInvertible ∧ ∃ p c c',
      lastProspect G choose 2 5 1 [Prospect.start M] = .ok p ∧
      p.remaining.rows.length ≤ 1 ∧ (run (some ⟨2, 5⟩)).circuit = some c ∧
      IsLeast {k | LeafCost G choose 2 M (Remaining.start 3) k} c.gates.length ∧
      (run none).circuit = some c' ∧ c.gates.length ≤ c'.gates.length := by
  intro G M choose run
  have hM : M.IsInvertible := isInvertible_iff.mpr ⟨by decide, by decide⟩
  have hG : ∀ H ∈ some G, H.size = M.rows ∧ H.isConnected = true := by
    rintro _ ⟨⟩
    exact ⟨rfl, by decide⟩
  have hdone : ((lastProspect G choose 2 5 1 [Prospect.start M]).toOption.map
      fun p => p.remaining.rows.length) = some 1 := by decide +kernel
  cases hlast : lastProspect G choose 2 5 1 [Prospect.start M] with
  | error e =>
    rw [hlast] at hdone
    cases hdone
  | ok p =>
    rw [hlast] at hdone
    have hcomplete : p.remaining.rows.length ≤ 1 := (Option.some.inj hdone).le
    obtain ⟨_, c, _, c', _, hc, hleast, _, hc', hle⟩ := bestFirst_optimal picks_lightestRow
      picks_lightestColumn hM hG rfl ⟨2, 5⟩ hlast hcomplete
    exact ⟨hM, p, c, c', rfl, hcomplete, hc, hleast, hc', hle⟩

end Method

end CnotSynthesis
