import CnotSynthesis.Proofs.Elimination.BranchTree

/-! # Rounds of a vertex elimination

A vertex elimination goes from stage to stage, and a round sets one pair aside. Every stage of an
invertible matrix on a connected graph splits into what is finished and a smaller problem of the
same kind, so no round can fail. The prospects of a best-first search are stages too.

* **`Remaining.Splits`** — how a matrix splits: finished columns are unit vectors, finished rows are
  zero on the other columns, and the remaining block is invertible on connected rows.
* **`Stage`**, **`Round G choose`** — a stage, and the round that leads to the next one;
  **`Round.keeps`**, **`Stage.Sound.exists_round`**, **`Round.exec_eq`** — what a round keeps, that
  there is one, and that the rounds are those of the elimination.
* **`RoundsHold`** — all stages from a stage on split, and the elimination runs through them.
* **`Search`**, **`Search.Expands`** — a search under way, and one prospect taken further;
  **`Search.Holds`** — what holds of every prospect that waits.
* **`Method.rounds_hold`** — the three vertex eliminations. -/

namespace CnotSynthesis

open Work ParityMatrix

variable {G : CouplingGraph} {choose : PairStrategy} {K : Remaining → Prop} {M : ParityMatrix}

/-! ## Finished and remaining -/

/-- **How a matrix splits** into what is set aside and what remains. -/
structure Remaining.Splits (p : Remaining) (G : CouplingGraph) (M : ParityMatrix) : Prop where
  nodup_rows : p.rows.Nodup
  rows_lt : ∀ r ∈ p.rows, r < M.rows
  nodup_columns : p.columns.Nodup
  columns_lt : ∀ c ∈ p.columns, c < M.rows
  length_eq : p.rows.length = p.columns.length
  /-- What remains is invertible on its own. -/
  block : (M.block p.rows p.columns).IsInvertible
  /-- A column set aside has a single one, in the row noted for it. -/
  unit : ∀ c < M.rows, c ∉ p.columns → ∀ r, M.entry r c = true ↔ p.output[c]? = some r
  /-- A row set aside is zero on the remaining columns. -/
  clear : ∀ r ∉ p.rows, ∀ c ∈ p.columns, M.entry r c = false
  /-- Columns set aside and rows set aside belong together in pairs. -/
  bijOn : Set.BijOn (fun c => p.output.getD c 0) {c | c < M.rows ∧ c ∉ p.columns}
    {r | r < M.rows ∧ r ∉ p.rows}
  connected : G.ConnectedOn {q | q ∈ p.rows}

/-- **A partial elimination splits its matrix.** -/
theorem Remaining.Fits.splits {p : Remaining} (h : p.Fits G M) (hconnected : p.Connected G) :
    p.Splits G M where
  nodup_rows := h.nodup_rows
  rows_lt := h.rows_lt
  nodup_columns := h.nodup_columns
  columns_lt := h.columns_lt
  length_eq := h.length_eq
  block := h.invertible.block h.length_eq h.nodup_rows h.rows_lt h.nodup_columns h.columns_lt
    fun _ hr _ => h.entry_eq_false hr
  unit := by
    intro c hc hnot r
    have hlt : c < p.output.length := h.length_output.symm ▸ hc
    rw [h.unit c hc hnot, decide_eq_true_eq, List.getD_eq_getElem _ _ hlt,
      List.getElem?_eq_getElem hlt, Option.some.injEq, eq_comm]
  clear := h.clear
  bijOn := by
    refine ⟨fun c hc => h.output_lt c hc.1 hc.2, ?_, ?_⟩
    · intro c hc d hd heq
      exact h.output_inj c d hc.1 hd.1 hc.2 hd.2 heq
    · -- the row has a one, and a remaining column holds none in it
      rintro r ⟨hr, hnot⟩
      obtain ⟨c, hc, hone⟩ := h.invertible.exists_one_row hr
      have hcolumn : c ∉ p.columns := by
        intro hmem
        rw [h.clear r hnot c hmem] at hone
        cases hone
      rw [h.unit c hc hcolumn, decide_eq_true_eq] at hone
      exact ⟨c, ⟨hc, hcolumn⟩, hone.symm⟩
  connected := hconnected

/-! ## One round -/

/-- A stage of a vertex elimination. -/
structure Stage where
  remaining : Remaining
  work : Work

namespace Stage

/-- Nothing is set aside yet. -/
def start (M : ParityMatrix) : Stage := ⟨Remaining.start M.rows, Work.start M⟩

/-- The pair is cleared in `w`: set it aside and take note of it. -/
def setAside (s : Stage) (row column : ℕ) (w : Work) : Stage :=
  ⟨s.remaining.remove row column, w.note (.vertex row column)⟩

end Stage

/-- **A round**: the chosen pair is cleared and set aside, or the last row and column are. -/
inductive Round (G : CouplingGraph) (choose : PairStrategy) : Stage → Stage → Prop
  | pair {s : Stage} {row column : ℕ} {w : Work} : 1 < s.remaining.rows.length →
      choose s.work.matrix s.remaining (G.removable s.remaining.rows) = some (row, column) →
      (Reduction.clearPair G row column s.remaining).exec s.work = (.ok (), w) →
      Round G choose s (s.setAside row column w)
  | last {s : Stage} {row column : ℕ} : s.remaining.rows = [row] → s.remaining.columns = [column] →
      s.work.matrix.entry row column = true → Round G choose s (s.setAside row column s.work)

/-- A stage of an elimination that goes well; `K` is what the strategy keeps. -/
structure Stage.Sound (s : Stage) (G : CouplingGraph) (K : Remaining → Prop) : Prop where
  fits : s.remaining.Fits G s.work.matrix
  connected : s.remaining.Connected G
  kept : K s.remaining

/-- The first stage of an invertible matrix on a connected graph is sound. -/
theorem Stage.sound_start (hM : M.IsInvertible) (hsize : G.size = M.rows)
    (hG : G.isConnected = true) (hK : K (Remaining.start M.rows)) : (Stage.start M).Sound G K :=
  ⟨.start hM hsize, Remaining.connected_start hsize hG, hK⟩

/-- Without rows there is nothing to connect. -/
theorem Remaining.connected_of_rows_eq_nil {p : Remaining} (h : p.rows = []) : p.Connected G := by
  rintro ⟨q, hq⟩
  have hq : q ∈ p.rows := hq
  simp [h] at hq

/-- The last row and column, carried out. -/
theorem Reduction.exec_finish {p : Remaining} {w : Work} {row column : ℕ} (hrow : p.rows = [row])
    (hcolumn : p.columns = [column]) (hone : w.matrix.entry row column = true) :
    (Reduction.finish p).exec w =
      (.ok (p.remove row column), w.note (.vertex row column)) := by
  unfold finish
  rw [hrow, hcolumn]
  dsimp only
  rw [Script.exec_bind, exec_matrix]
  dsimp only
  rw [if_pos hone]
  rfl

/-- Without rows there is nothing to finish. -/
theorem Reduction.exec_finish_of_rows_eq_nil {p : Remaining} (h : p.rows = []) (w : Work) :
    (Reduction.finish p).exec w = (.ok p, w) := by
  unfold finish
  rw [h]
  rfl

/-- **An elimination of several rows** starts with the chosen pair. -/
theorem Reduction.exec_eliminateFrom_pair {fuel : ℕ} {p : Remaining} {w w' : Work} {row column : ℕ}
    (hlong : 1 < p.rows.length)
    (hchoose : choose w.matrix p (G.removable p.rows) = some (row, column))
    (hpair : (Reduction.clearPair G row column p).exec w = (.ok (), w')) :
    (Reduction.eliminateFrom G choose (fuel + 1) p).exec w =
      (Reduction.eliminateFrom G choose fuel (p.remove row column)).exec
        (w'.note (.vertex row column)) := by
  rw [eliminateFrom, if_neg (by omega), Script.exec_bind, exec_matrix]
  dsimp only
  rw [hchoose]
  dsimp only
  rw [Script.exec_bind, hpair]
  rfl

namespace Stage.Sound

variable {s t : Stage}

/-- A sound stage splits its matrix. -/
theorem splits (h : s.Sound G K) : s.remaining.Splits G s.work.matrix := h.fits.splits h.connected

/-- A strategy that guides chooses a pair, and the pair can be cleared. -/
theorem exists_pair (hguides : choose.Guides G K) (h : s.Sound G K)
    (hlong : 1 < s.remaining.rows.length) : ∃ row column w,
      choose s.work.matrix s.remaining (G.removable s.remaining.rows) = some (row, column) ∧
      row ∈ G.removable s.remaining.rows ∧
      (Reduction.clearPair G row column s.remaining).exec s.work = (.ok (), w) ∧
      (s.remaining.remove row column).Fits G w.matrix := by
  obtain ⟨row, column, hchoose, hrow, hcolumn⟩ := hguides h.fits h.connected h.kept hlong
  have hoffers : s.remaining.Offers G row column :=
    ⟨(h.fits.mem_removable hrow column).1, hcolumn, h.connected⟩
  have hyields := Reduction.clearPair_yields (F := False) h.fits fun hnot => hnot hoffers
  obtain ⟨_, w, hexec, _, _, hfits⟩ := hyields.exec_eq
  exact ⟨row, column, w, hchoose, hrow, hexec, hfits⟩

/-- **No round fails**: as long as something remains there is a next one. -/
theorem exists_round (hguides : choose.Guides G K) (h : s.Sound G K)
    (hne : s.remaining.rows ≠ []) : ∃ t, Round G choose s t := by
  by_cases hlong : 1 < s.remaining.rows.length
  · obtain ⟨row, column, w, hchoose, _, hexec, _⟩ := h.exists_pair hguides hlong
    exact ⟨_, .pair hlong hchoose hexec⟩
  · have hpos := List.length_pos_of_ne_nil hne
    have hlength := h.fits.length_eq
    obtain ⟨row, hrow⟩ := List.length_eq_one_iff.mp (show s.remaining.rows.length = 1 by omega)
    obtain ⟨column, hcolumn⟩ :=
      List.length_eq_one_iff.mp (show s.remaining.columns.length = 1 by omega)
    -- the column that is left has a one in a row that is left
    obtain ⟨r, hr, hone⟩ := h.fits.exists_one_column (c := column) (by simp [hcolumn])
    rw [hrow, List.mem_singleton] at hr
    rw [hr] at hone
    exact ⟨_, .last hrow hcolumn hone⟩

end Stage.Sound

namespace Round

variable {s t : Stage}

/-- **What a round keeps.** -/
theorem keeps (hround : Round G choose s t) (hkeeps : choose.Keeps K) (hguides : choose.Guides G K)
    (h : s.Sound G K) : t.Sound G K := by
  cases hround with
  | pair hlong hchoose hexec =>
    -- the pair chosen is the one that can be cleared
    obtain ⟨_, _, _, hchoose', hrow, hexec', hfits⟩ := h.exists_pair hguides hlong
    cases hchoose.symm.trans hchoose'
    cases hexec.symm.trans hexec'
    exact ⟨hfits, (h.fits.mem_removable hrow _).2, hkeeps.pair h.kept hchoose⟩
  | last hrow hcolumn hone =>
    have hyields := Reduction.finish_yields (F := False) hkeeps h.fits h.kept (by simp [hrow])
    obtain ⟨hfits, hK, hnil⟩ := hyields.of_exec_ok (Reduction.exec_finish hrow hcolumn hone)
    exact ⟨hfits, Remaining.connected_of_rows_eq_nil hnil, hK⟩

/-- A round takes one row away. -/
theorem length_rows (hround : Round G choose s t) (h : s.remaining.rows.Nodup) :
    t.remaining.rows.length + 1 = s.remaining.rows.length := by
  cases hround with
  | pair _ _ hexec => exact length_filter_ne h (mem_rows_of_clearPair hexec)
  | last hrow => exact length_filter_ne h (by simp [hrow])

/-- **The rounds are those of the elimination**: it goes on from the next stage. -/
theorem exec_eq (hround : Round G choose s t) (h : s.remaining.rows.Nodup) :
    (Reduction.eliminateAll G choose s.remaining).exec s.work =
      (Reduction.eliminateAll G choose t.remaining).exec t.work := by
  have hlength := hround.length_rows h
  unfold Reduction.eliminateAll
  rw [← hlength]
  cases hround with
  | pair hlong hchoose hexec => exact Reduction.exec_eliminateFrom_pair hlong hchoose hexec
  | @last row column hrow hcolumn hone =>
    -- the round is all that is left to do, and the next stage has nothing to do
    have hone_row : s.remaining.rows.length ≤ 1 := by simp [hrow]
    have hnone : (s.remaining.remove row column).rows = [] := by
      show s.remaining.rows.filter (· != row) = []
      simp [hrow]
    rw [Reduction.eliminateFrom, if_pos hone_row, Reduction.exec_finish hrow hcolumn hone]
    show _ = (Reduction.eliminateFrom G choose (s.remaining.remove row column).rows.length
      (s.remaining.remove row column)).exec _
    rw [hnone]
    exact (Reduction.exec_finish_of_rows_eq_nil hnone _).symm

end Round

/-! ## All rounds -/

/-- **The rounds from a stage on hold**: every stage splits, there is a next round as long as rows
remain, and the elimination is the rounds up to the last one. -/
structure RoundsHold (G : CouplingGraph) (choose : PairStrategy) (s : Stage) : Prop where
  splits : ∀ t, Relation.ReflTransGen (Round G choose) s t → t.remaining.Splits G t.work.matrix
  next : ∀ t, Relation.ReflTransGen (Round G choose) s t → t.remaining.rows ≠ [] →
    ∃ u, Round G choose t u
  ends : ∃ t, Relation.ReflTransGen (Round G choose) s t ∧ t.remaining.rows = [] ∧
    (Reduction.eliminateAll G choose s.remaining).exec s.work = (.ok t.remaining, t.work)

namespace Stage.Sound

variable {s t : Stage}

/-- What every round keeps holds of every stage. -/
theorem of_rounds (hkeeps : choose.Keeps K) (hguides : choose.Guides G K) (h : s.Sound G K)
    (hrounds : Relation.ReflTransGen (Round G choose) s t) : t.Sound G K := by
  induction hrounds with
  | refl => exact h
  | tail _ hround ih => exact hround.keeps hkeeps hguides ih

/-- The rounds come to an end, and the elimination is there too. -/
theorem exists_end (hkeeps : choose.Keeps K) (hguides : choose.Guides G K) (n : ℕ) :
    ∀ {s : Stage}, s.Sound G K → s.remaining.rows.length = n →
      ∃ t, Relation.ReflTransGen (Round G choose) s t ∧ t.remaining.rows = [] ∧
        (Reduction.eliminateAll G choose s.remaining).exec s.work = (.ok t.remaining, t.work) := by
  induction n with
  | zero =>
    intro s h hlength
    have hnil := List.eq_nil_of_length_eq_zero hlength
    refine ⟨s, .refl, hnil, ?_⟩
    unfold Reduction.eliminateAll
    rw [hlength]
    exact Reduction.exec_finish_of_rows_eq_nil hnil s.work
  | succ n ih =>
    intro s h hlength
    have hne : s.remaining.rows ≠ [] := List.ne_nil_of_length_pos (by omega)
    obtain ⟨u, hround⟩ := h.exists_round hguides hne
    have hshorter := hround.length_rows h.fits.nodup_rows
    obtain ⟨t, hrounds, hnil, hexec⟩ := ih (hround.keeps hkeeps hguides h) (by omega)
    exact ⟨t, .head hround hrounds, hnil, (hround.exec_eq h.fits.nodup_rows).trans hexec⟩

/-- **From a sound stage on all rounds hold.** -/
theorem roundsHold (hkeeps : choose.Keeps K) (hguides : choose.Guides G K) (h : s.Sound G K) :
    RoundsHold G choose s where
  splits := fun _ hrounds => (h.of_rounds hkeeps hguides hrounds).splits
  next := fun _ hrounds => (h.of_rounds hkeeps hguides hrounds).exists_round hguides
  ends := exists_end hkeeps hguides _ h rfl

end Stage.Sound

/-! ## The prospects of a search -/

/-- A pair that can be set aside leads from a sound prospect to a sound one. -/
theorem Prospect.Sound.exists_child {p : Prospect} (h : p.Sound False G M) {pair : ℕ × ℕ}
    (hpair : pair.1 ∈ G.removable p.remaining.rows ∧ pair.2 ∈ p.remaining.columns) (number : ℕ) :
    ∃ q, p.child G number pair = .ok q ∧ q.Sound False G M :=
  (h.child_gives number fun _ => hpair).exists_ok not_false

/-- A best-first search under way: what is left of its budget, the number of prospects made, and
those that wait. -/
structure Search where
  budget : ℕ
  made : ℕ
  waiting : List Prospect

namespace Search

/-- The search begins with one prospect. -/
def start (settings : BestFirst) (M : ParityMatrix) : Search :=
  ⟨settings.budget, 1, [Prospect.start M]⟩

/-- What the search ends with. -/
def result (G : CouplingGraph) (choose : PairStrategy) (width : ℕ) (s : Search) :
    Except SynthesisError (List RowAddition × List ℕ) :=
  bestFirstFrom G choose width s.budget s.made s.waiting

/-- **A step of a search**: the best prospect is replaced by its offshoots. -/
inductive Expands (G : CouplingGraph) (choose : PairStrategy) (width : ℕ) : Search → Search → Prop
  | expand {budget made : ℕ} {waiting children : List Prospect} {p : Prospect} :
      leastBy Prospect.before waiting = some p → 1 < p.remaining.rows.length →
      offshoots G p made (pairsTried G choose width p.matrix p.remaining) = .ok children →
      Expands G choose width ⟨budget + 1, made, waiting⟩ ⟨budget, made + children.length,
        (waiting.filter fun other => other.number != p.number) ++ children⟩

/-- **What holds of a search under way**: it has a prospect to take further, and each that waits
splits its matrix, has offshoots for all pairs tried from it, and can be finished. -/
structure Holds (G : CouplingGraph) (choose : PairStrategy) (width : ℕ) (s : Search) : Prop where
  waits : s.waiting ≠ []
  rounds : ∀ p ∈ s.waiting, RoundsHold G choose ⟨p.remaining, .start p.matrix⟩
  children : ∀ p ∈ s.waiting, 1 < p.remaining.rows.length →
    pairsTried G choose width p.matrix p.remaining ≠ [] ∧
    ∀ pair ∈ pairsTried G choose width p.matrix p.remaining, ∀ number,
      ∃ q, p.child G number pair = .ok q

variable {width : ℕ} {s t : Search}

/-- The search goes on from the next step. -/
theorem Expands.result_eq (h : Expands G choose width s t) :
    s.result G choose width = t.result G choose width := by
  cases h with
  | expand hleast hlong hchildren =>
    unfold result
    dsimp only
    rw [bestFirstFrom, hleast]
    dsimp only
    rw [if_neg (by omega), hchildren]
    rfl

/-- **A step keeps the prospects sound**, and leaves one. -/
theorem Expands.keeps (hguides : choose.Guides G fun _ => True) (hstep : Expands G choose width s t)
    (h : ∀ p ∈ s.waiting, p.Sound False G M) :
    t.waiting ≠ [] ∧ ∀ p ∈ t.waiting, p.Sound False G M := by
  cases hstep with
  | @expand budget made waiting children p hleast hlong hchildren =>
    have hp := h p (leastBy_mem hleast)
    obtain ⟨hsome, htried⟩ := pairsTried_spec hguides width hp.fits (hp.connected not_false) hlong
    have hgives := offshoots_gives hp _ made fun _ => htried
    rw [hchildren] at hgives
    obtain ⟨hlength, hsounds⟩ := hgives
    constructor
    · refine List.append_ne_nil_of_right_ne_nil _ (List.ne_nil_of_length_pos ?_)
      rw [hlength]
      exact List.length_pos_of_ne_nil hsome
    · intro q hq
      rcases List.mem_append.mp hq with hq | hq
      · exact h q (List.mem_filter.mp hq).1
      · exact hsounds q hq

/-- Sound prospects are all that is needed. -/
theorem holds_of_sound (hguides : choose.Guides G fun _ => True) (hne : s.waiting ≠ [])
    (h : ∀ p ∈ s.waiting, p.Sound False G M) : s.Holds G choose width where
  waits := hne
  rounds := by
    intro p hp
    have hsound : Stage.Sound ⟨p.remaining, .start p.matrix⟩ G fun _ => True :=
      ⟨(h p hp).fits, (h p hp).connected not_false, trivial⟩
    exact hsound.roundsHold choose.keeps_true hguides
  children := by
    intro p hp hlong
    obtain ⟨hsome, htried⟩ :=
      pairsTried_spec hguides width (h p hp).fits ((h p hp).connected not_false) hlong
    refine ⟨hsome, ?_⟩
    intro pair hpair number
    obtain ⟨q, hchild, _⟩ := (h p hp).exists_child (htried pair hpair) number
    exact ⟨q, hchild⟩

/-- **Every search under way holds**, and ends with what the whole search ends with. -/
theorem holds_of_expands (hguides : choose.Guides G fun _ => True) (hM : M.IsInvertible)
    (hsize : G.size = M.rows) (hG : G.isConnected = true) (settings : BestFirst)
    (h : Relation.ReflTransGen (Expands G choose settings.width) (start settings M) s) :
    s.Holds G choose settings.width ∧
      s.result G choose settings.width = bestFirst G choose settings M := by
  -- the invariant of the search: a prospect waits, all that wait are sound, the result stays
  have hinv : s.waiting ≠ [] ∧ (∀ p ∈ s.waiting, p.Sound False G M) ∧
      s.result G choose settings.width = bestFirst G choose settings M := by
    induction h with
    | refl =>
      refine ⟨List.cons_ne_nil _ _, ?_, rfl⟩
      intro p hp
      rw [List.mem_singleton.mp hp]
      exact Prospect.sound_start hM hsize fun _ => hG
    | tail _ hstep ih =>
      obtain ⟨hne, hsound⟩ := hstep.keeps hguides ih.2.1
      exact ⟨hne, hsound, hstep.result_eq.symm.trans ih.2.2⟩
  exact ⟨holds_of_sound hguides hinv.1 hinv.2.1, hinv.2.2⟩

end Search

/-! ## Whole eliminations -/

namespace Reduction

variable {G? : Option CouplingGraph} {p : Remaining} {w : Work}

/-- Tied vertex elimination is the elimination of all tied pairs. -/
theorem plan_rowCol (hM : M.IsInvertible) (hG : graphFor G? M.rows = .ok G)
    (h : (eliminateAll G tiedPair (Remaining.start M.rows)).exec (Work.start M) = (.ok p, w)) :
    (rowCol G?).plan M = ⟨w, .ok M.rows⟩ := by
  rw [plan_eq]
  unfold rowCol
  rw [exec_checked (w := Work.start M) hM hG, Script.exec_bind,
    show (Work.start M).matrix.rows = M.rows from rfl, h]
  rfl

/-- Free vertex elimination is the elimination of all pairs chosen. -/
theorem plan_permRowCol_none (hM : M.IsInvertible) (hG : graphFor G? M.rows = .ok G)
    (h : (eliminateAll G choose (Remaining.start M.rows)).exec (Work.start M) = (.ok p, w)) :
    (permRowCol choose none G?).plan M = ⟨w, .ok p.output⟩ := by
  rw [plan_eq, exec_permRowCol_none hM hG, h]
  rfl

/-- Best-first elimination ends with what the search found. -/
theorem plan_permRowCol_some {settings : BestFirst} {ops : List RowAddition} {output : List ℕ}
    (hM : M.IsInvertible) (hG : graphFor G? M.rows = .ok G)
    (h : bestFirst G choose settings M = .ok (ops, output)) :
    ((permRowCol choose (some settings) G?).plan M).outcome = .ok output ∧
      ((permRowCol choose (some settings) G?).plan M).work.matrix = M.addRows ops := by
  rw [plan_eq, exec_permRowCol_some hM hG h]
  refine ⟨rfl, ?_⟩
  exact (matrix_foldl_note (fun x : ℕ × ℕ => Event.vertex x.1 x.2) output.zipIdx _).trans
    (matrix_addRows ops (Work.start M))

end Reduction

/-- **A run that ends where its rounds end**, with a result read off what remains. -/
def Run.EndsRounds {α : Type} (r : Run α) (G : CouplingGraph) (choose : PairStrategy)
    (M : ParityMatrix) (result : Remaining → α) : Prop :=
  ∃ t, Relation.ReflTransGen (Round G choose) (Stage.start M) t ∧ t.remaining.rows = [] ∧
    r.matrix = t.work.matrix ∧ r.events = t.work.events ∧ r.outcome = .ok (result t.remaining)

namespace Method

variable {row : RowStrategy} {column : ColumnStrategy} {G? : Option CouplingGraph}
  {c? : Option Circuit}

/-- Tied vertex elimination ends where its rounds end. -/
theorem rowCol_endsRounds (hM : M.IsInvertible) (hgraph : graphFor G? M.rows = .ok G)
    (hrounds : RoundsHold G tiedPair (Stage.start M)) (hc : ∀ c ∈ c?, M.rows ≤ c.qubits) :
    (Method.rowCol.reduce G? M c?).EndsRounds G tiedPair M fun _ => M.rows := by
  obtain ⟨t, hreach, hnil, hexec⟩ := hrounds.ends
  refine ⟨t, hreach, hnil, ?_⟩
  rw [rowCol_reduce_eq hc, Reduction.plan_rowCol hM hgraph hexec]
  exact ⟨rfl, rfl, rfl⟩

/-- So does free vertex elimination, with the output of the last stage. -/
theorem permute_endsRounds (hM : M.IsInvertible) (hgraph : graphFor G? M.rows = .ok G)
    (hrounds : RoundsHold G (freePair row column) (Stage.start M))
    (hc : ∀ c ∈ c?, M.rows ≤ c.qubits) :
    (permute row column none G? M c?).EndsRounds G (freePair row column) M Remaining.output := by
  obtain ⟨t, hreach, hnil, hexec⟩ := hrounds.ends
  refine ⟨t, hreach, hnil, ?_⟩
  rw [permute_eq row column none hc, Reduction.plan_permRowCol_none hM hgraph hexec]
  exact ⟨rfl, rfl, rfl⟩

/-- **The rounds of vertex eliminations.** On an invertible matrix and a connected graph, every
stage of tied vertex elimination, of free vertex elimination and from every prospect of its
best-first variant splits the matrix, and no pair fails to be cleared. The row strategy must choose
a candidate, and the column strategy a remaining column at least when the row holds a one in one of
them. The eliminations end where their rounds end, tied vertex elimination with the identity. -/
theorem rounds_hold
    (hrow : ∀ N candidates columns, candidates ≠ [] →
      ∃ r ∈ candidates, row N candidates columns = some r)
    (hcolumn : ∀ N r rows columns, (∃ c ∈ columns, N.entry r c = true) →
      ∃ c ∈ columns, column N r rows columns = some c)
    (hM : M.IsInvertible) (hG : ∀ G ∈ G?, G.size = M.rows ∧ G.isConnected = true)
    (hc : ∀ c ∈ c?, M.rows ≤ c.qubits) :
    ∃ G, graphFor G? M.rows = .ok G ∧
      (RoundsHold G tiedPair (Stage.start M) ∧
        (Method.rowCol.reduce G? M c?).EndsRounds G tiedPair M (fun _ => M.rows) ∧
        (Method.rowCol.reduce G? M c?).matrix = identity M.rows) ∧
      (RoundsHold G (freePair row column) (Stage.start M) ∧
        (permute row column none G? M c?).EndsRounds G (freePair row column) M Remaining.output) ∧
      ∀ settings : BestFirst,
        (∀ s, Relation.ReflTransGen (Search.Expands G (freePair row column) settings.width)
          (Search.start settings M) s → s.Holds G (freePair row column) settings.width ∧
            s.result G (freePair row column) settings.width =
              bestFirst G (freePair row column) settings M) ∧
        ∃ ops output, bestFirst G (freePair row column) settings M = .ok (ops, output) ∧
          (permute row column (some settings) G? M c?).matrix = M.addRows ops ∧
          (permute row column (some settings) G? M c?).outcome = .ok output := by
  obtain ⟨G, hgraph, hsuits⟩ : ∃ G, graphFor G? M.rows = .ok G ∧ G.Suits .byGraph M.rows :=
    graphFor_suits fun G h => CouplingGraph.suits_byGraph (hG G h).1 (hG G h).2
  have hguides : (freePair row column).Guides G fun _ => True := guides_of_picks G hrow hcolumn
  have htied : RoundsHold G tiedPair (Stage.start M) :=
    (Stage.sound_start hM hsuits.size_eq hsuits.connected (Remaining.tied_start _)).roundsHold
      keeps_tiedPair (guides_tiedPair G)
  have hfree : RoundsHold G (freePair row column) (Stage.start M) :=
    (Stage.sound_start hM hsuits.size_eq hsuits.connected trivial).roundsHold
      (PairStrategy.keeps_true _) hguides
  refine ⟨G, hgraph, ⟨htied, rowCol_endsRounds hM hgraph htied hc, ?_⟩,
    ⟨hfree, permute_endsRounds hM hgraph hfree hc⟩, ?_⟩
  · obtain ⟨_, w, hexec, _, hidentity⟩ := (Reduction.rowCol_yields (F := False)
      (w := Work.start M) hM hgraph hsuits.size_eq hsuits.connected).exec_eq
    rw [rowCol_reduce_eq hc, Reduction.plan_eq, hexec]
    exact hidentity
  · intro settings
    refine ⟨fun s =>
      Search.holds_of_expands hguides hM hsuits.size_eq hsuits.connected settings, ?_⟩
    obtain ⟨⟨ops, output⟩, hfound, _⟩ := (bestFirst_gives (F := False) (fun _ => hguides) settings
      hM hsuits.size_eq fun _ => hsuits.connected).exists_ok not_false
    obtain ⟨houtcome, hmatrix⟩ := Reduction.plan_permRowCol_some hM hgraph hfound
    refine ⟨ops, output, hfound, ?_⟩
    rw [permute_eq row column (some settings) hc]
    exact ⟨hmatrix, by rw [houtcome]; rfl⟩

/-- The last candidate and the first column left, on a line of three qubits. -/
theorem rounds_hold_line :
    let row : RowStrategy := fun _ candidates _ => candidates.getLast?
    let column : ColumnStrategy := fun _ _ _ columns => columns.head?
    let M := (identity 3).addRow 0 1
    let c := Circuit.empty 3
    M.IsInvertible ∧ (CouplingGraph.line 3).isConnected = true ∧
      ∃ G, graphFor (some (CouplingGraph.line 3)) 3 = .ok G ∧
        RoundsHold G (freePair row column) (Stage.start M) ∧
        (∀ s, Relation.ReflTransGen (Search.Expands G (freePair row column) 2)
          (Search.start ⟨2, 5⟩ M) s → s.Holds G (freePair row column) 2) ∧
        (Method.rowCol.reduce (some (CouplingGraph.line 3)) M (some c)).matrix = identity 3 := by
  intro row column M c
  have hM : M.IsInvertible := isInvertible_iff.mpr ⟨by decide, by decide⟩
  have hline : (CouplingGraph.line 3).isConnected = true := by decide
  obtain ⟨G, hgraph, ⟨_, _, hidentity⟩, ⟨hfree, _⟩, hsearch⟩ := @rounds_hold M row column
    (some (CouplingGraph.line 3)) (some c)
    (fun _ candidates _ hne => ⟨_, List.getLast_mem hne, List.getLast?_eq_some_getLast hne⟩)
    (fun _ _ _ columns ⟨_, hmem, _⟩ =>
      ⟨_, List.head_mem (List.ne_nil_of_mem hmem), List.head?_eq_some_head _⟩)
    hM (by rintro _ ⟨⟩; exact ⟨rfl, hline⟩) (by rintro _ ⟨⟩; exact le_rfl)
  exact ⟨hM, hline, G, hgraph, hfree, fun s hs => ((hsearch ⟨2, 5⟩).1 s hs).1, hidentity⟩

end Method

end CnotSynthesis
