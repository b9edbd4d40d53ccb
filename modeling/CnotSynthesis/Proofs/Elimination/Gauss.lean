import CnotSynthesis.Elimination.Gauss
import CnotSynthesis.Proofs.Elimination.Transcript
import CnotSynthesis.Proofs.Matrix.Echelon

/-! # Gaussian elimination reduces

* **`Sweep.forward M`**, **`Sweep.backward`** — the two passes as functions of the work;
  **`Script.exec_gauss`**, **`gauss_eq`** — they are what the script does.
* **`gaussWith_eq`** — beside a companion it is what the companion makes of the log.
* **`Sweep.forward_echelonTo`**, **`gauss_reducedEchelon`** — the downward pass reaches an echelon
  form, the upward pass the reduced one.
* **`gauss_unique`** — any proper row additions that reach a reduced form reach the same one.
* **`ParityMatrix.rank_eq_rank_toMatrix`**, **`ParityMatrix.isInvertible_iff`** — the number of
  pivots is the rank, and a square matrix is invertible exactly if it has full rank.
* **`ParityMatrix.IsInvertible.inverse?_eq`** — an invertible matrix has its inverse computed. -/

namespace CnotSynthesis

/-- Row additions between two different rows out of `n`. -/
def ProperRows (n t s : ℕ) : Prop := (⟨t, s⟩ : RowAddition).IsProper n

/-! ## The passes as functions of the work -/

/-- Add row `source` into those of `targets` that hold a one in `column`. -/
def Work.clearRows (w : Work) (column source : ℕ) (targets : List ℕ) : Work :=
  targets.foldl (fun w r => if w.matrix.entry r column then w.addRow r source else w) w

/-- The downward pass under way: pivot `i` stands in row `i`, column `pivots[i]`. -/
structure Sweep where
  work : Work
  pivots : List ℕ

namespace Sweep

/-- Take column `c`: find a pivot for the next row and clear the rows below it. -/
def step (s : Sweep) (c : ℕ) : Sweep :=
  let rows := s.work.matrix.rows
  let pivot := s.pivots.length
  match (List.range' pivot (rows - pivot)).find? (s.work.matrix.entry · c) with
  | none => s
  | some found =>
    let w := if found = pivot then s.work else s.work.addRow pivot found
    ⟨w.clearRows c pivot (List.range' (pivot + 1) (rows - (pivot + 1))), s.pivots ++ [c]⟩

/-- The downward pass over all columns. -/
def forward (M : ParityMatrix) : Sweep := (List.range M.cols).foldl step ⟨Work.start M, []⟩

/-- The upward pass: above each pivot, last pivot first, the column is cleared. -/
def backward (s : Sweep) : Work :=
  s.pivots.zipIdx.reverse.foldl (fun w x => w.clearRows x.1 x.2 (List.range x.2)) s.work

/-- A column changes nothing when every row has its pivot. -/
theorem step_eq_self {s : Sweep} (h : s.work.matrix.rows ≤ s.pivots.length) (c : ℕ) :
    s.step c = s := by
  simp [step, Nat.sub_eq_zero_of_le h]

/-- Nor do the columns after it. -/
theorem foldl_step_eq_self {s : Sweep} (h : s.work.matrix.rows ≤ s.pivots.length) (cs : List ℕ) :
    cs.foldl step s = s := by
  induction cs with
  | nil => rfl
  | cons c cs ih => rwa [List.foldl_cons, step_eq_self h]

end Sweep

namespace Script

variable {ε : Type}

/-- Clearing rows is the pure pass over them. -/
theorem exec_clearRows (column source : ℕ) (targets : List ℕ) (w : Work) :
    (clearRows column source targets : Script ε Unit).exec w =
      (.ok (), w.clearRows column source targets) := by
  refine exec_forM ?_ targets w
  intro r w
  change ((if w.matrix.entry r column = true then addRow r source else pure ()) :
    Script ε Unit).exec w = _
  split <;> rfl

/-- Taking a column is the pure step of the sweep. -/
theorem exec_takeColumn (s : Sweep) (c : ℕ) :
    (takeColumn s.pivots c : Script ε (List ℕ)).exec s.work =
      (.ok (s.step c).pivots, (s.step c).work) := by
  unfold takeColumn Sweep.step
  rw [exec_bind, exec_matrix]
  dsimp only
  cases (List.range' s.pivots.length (s.work.matrix.rows - s.pivots.length)).find?
      (s.work.matrix.entry · c) with
  | none => rfl
  | some found =>
    dsimp only
    split
    · next h => simp only [exec_bind, exec_addRow, exec_clearRows, exec_pure]
    · next h => simp only [exec_bind, exec_clearRows, exec_pure, if_pos (not_not.mp h)]

/-- The downward pass takes one column after the other, and may end early. -/
theorem exec_passDown (k c : ℕ) (s : Sweep) :
    (passDown k c s.pivots : Script ε (List ℕ)).exec s.work =
      (.ok ((List.range' c k).foldl Sweep.step s).pivots,
        ((List.range' c k).foldl Sweep.step s).work) := by
  induction k generalizing c s with
  | zero => rfl
  | succ k ih =>
    unfold passDown
    rw [exec_bind, exec_matrix]
    dsimp only
    split
    · next h => rw [Sweep.foldl_step_eq_self h, exec_pure]
    · rw [exec_bind, exec_takeColumn, List.range'_succ, List.foldl_cons]
      exact ih (c + 1) (s.step c)

/-- The upward pass is the pure one. -/
theorem exec_passUp (s : Sweep) :
    (passUp s.pivots : Script ε Unit).exec s.work = (.ok (), s.backward) :=
  exec_forM (fun x w => exec_clearRows x.1 x.2 (List.range x.2) w) _ _

/-- **What Gaussian elimination does**, whatever its errors are. -/
theorem exec_gauss (full : Bool) (M : ParityMatrix) :
    (gauss full : Script ε ℕ).exec (.start M) = (.ok (Sweep.forward M).pivots.length,
      if full then (Sweep.forward M).backward else (Sweep.forward M).work) := by
  have hdown : (passDown (Work.start M).matrix.cols 0 [] : Script ε (List ℕ)).exec (.start M) =
      (.ok (Sweep.forward M).pivots, (Sweep.forward M).work) := by
    rw [Sweep.forward, List.range_eq_range']
    exact exec_passDown M.cols 0 ⟨.start M, []⟩
  unfold gauss
  rw [exec_bind, exec_matrix]
  dsimp only
  rw [exec_bind, hdown]
  cases full with
  | false => rfl
  | true => simp only [if_true, exec_bind, exec_passUp, exec_pure]

end Script

/-- **Gaussian elimination is the two pure passes.** -/
theorem gauss_eq (full : Bool) (M : ParityMatrix) :
    gauss full M = (if full then (Sweep.forward M).backward else (Sweep.forward M).work,
      (Sweep.forward M).pivots.length) := by
  unfold gauss
  rw [Script.exec_gauss]

/-- There are as many pivots as the rank says. -/
theorem length_pivots (M : ParityMatrix) : (Sweep.forward M).pivots.length = M.rank := by
  rw [ParityMatrix.rank, gauss_eq]

/-- The upward pass does not change the rank. -/
theorem gauss_rank (full : Bool) (M : ParityMatrix) : (gauss full M).2 = M.rank := by
  rw [gauss_eq, length_pivots]

/-- **Beside a companion** elimination ends at the first row addition that the companion rejects. -/
theorem gaussWith_eq {γ ε : Type} (record : γ → ℕ → ℕ → Except ε γ) (full : Bool)
    (M : ParityMatrix) (c : γ) :
    let t := transcribe record (gauss full M).1.events c
    gaussWith record full M c =
      ⟨M.addRows (rowAdditions t.events), t.companion, t.outcome id (.ok (gauss full M).2)⟩ := by
  have hexec : (Script.gauss full : Script ε ℕ).exec (.start M) =
      (.ok (gauss full M).2, (gauss full M).1) := by rw [Script.exec_gauss, gauss_eq]
  unfold gaussWith
  rw [Script.runOn_beside, hexec]

/-! ## The log -/

/-- Nothing but row additions was logged. -/
def Work.Plain (w : Work) : Prop := ∀ e ∈ w.events, ∃ t s, e = .row t s

namespace Work.Plain

variable {w : Work}

/-- A row addition keeps the log plain. -/
theorem addRow (h : w.Plain) (t s : ℕ) : (w.addRow t s).Plain := by
  intro e he
  rcases List.mem_cons.mp (List.mem_reverse.mp he) with rfl | he
  · exact ⟨t, s, rfl⟩
  · exact h e (List.mem_reverse.mpr he)

/-- So does a pass over some rows. -/
theorem clearRows (h : w.Plain) (column source : ℕ) (targets : List ℕ) :
    (w.clearRows column source targets).Plain := by
  refine List.foldlRecOn targets _ h ?_
  intro w hw r _
  split
  · exact hw.addRow r source
  · exact hw

/-- So does a column. -/
theorem step {s : Sweep} (h : s.work.Plain) (c : ℕ) : (s.step c).work.Plain := by
  unfold Sweep.step
  dsimp only
  split
  · exact h
  · split
    · exact h.clearRows _ _ _
    · exact (h.addRow _ _).clearRows _ _ _

end Work.Plain

/-- **Gaussian elimination logs its row additions only.** -/
theorem plain_gauss (full : Bool) (M : ParityMatrix) : (gauss full M).1.Plain := by
  have hstart : (Work.start M).Plain := by
    intro e he
    cases he
  have hforward : (Sweep.forward M).work.Plain :=
    List.foldlRecOn (motive := fun s : Sweep => s.work.Plain) (List.range M.cols) Sweep.step hstart
      fun _ hs c _ => hs.step c
  rw [gauss_eq]
  cases full with
  | false => exact hforward
  | true => exact List.foldlRecOn _ _ hforward fun _ hw x _ => hw.clearRows _ _ _

/-! ## Clearing a column from one row -/

namespace Work

/-- Clearing rows adds the source to some of them. -/
theorem steps_clearRows {E : ℕ → ℕ → Prop} (w : Work) (column : ℕ) {source : ℕ}
    {targets : List ℕ} (h : ∀ r ∈ targets, E r source) :
    Steps E w (w.clearRows column source targets) := by
  refine steps_foldl ?_ w
  intro r hr w
  split
  · exact steps_addRow (h r hr) w
  · exact Steps.refl w

/-- **Clearing rows from a source**: exactly the targets with a one in the column take it. -/
theorem entry_clearRows (w : Work) (column : ℕ) {source : ℕ} {targets : List ℕ}
    (hnodup : targets.Nodup) (hsource : source ∉ targets)
    (hlt : ∀ r ∈ targets, r < w.matrix.rows) (r j : ℕ) :
    (w.clearRows column source targets).matrix.entry r j =
      if r ∈ targets ∧ w.matrix.entry r column = true then
        (w.matrix.entry r j != w.matrix.entry source j)
      else w.matrix.entry r j := by
  induction targets generalizing w with
  | nil => simp [clearRows]
  | cons t targets ih =>
    obtain ⟨ht, hnodup⟩ := List.nodup_cons.mp hnodup
    have hst : source ≠ t := fun h => hsource (h ▸ List.mem_cons_self)
    have hsource : source ∉ targets := fun h => hsource (List.mem_cons_of_mem _ h)
    have hlt' : ∀ r ∈ targets, r < w.matrix.rows := fun r hr => hlt r (List.mem_cons_of_mem _ hr)
    have htlt : t < w.matrix.rows := hlt t List.mem_cons_self
    -- the first target is treated on its own; the later ones see the same source row
    change ((if w.matrix.entry t column then w.addRow t source else w).clearRows
      column source targets).matrix.entry r j = _
    split
    · next hone =>
      have hrows : (w.addRow t source).matrix.rows = w.matrix.rows := rfl
      have hentry : ∀ r j, (w.addRow t source).matrix.entry r j =
          if r = t then (w.matrix.entry t j != w.matrix.entry source j)
          else w.matrix.entry r j := by
        intro r j
        change (w.matrix.addRow t source).entry r j = _
        simp [ParityMatrix.entry_addRow, htlt]
      rw [ih _ hnodup hsource (by rw [hrows]; exact hlt')]
      by_cases hrt : r = t
      · subst hrt
        simp [hentry, ht, hone]
      · simp [hentry, hrt, hst]
    · next hzero =>
      rw [ih w hnodup hsource hlt']
      by_cases hrt : r = t
      · subst hrt
        simp [ht, hzero]
      · simp [hrt]

end Work

/-! ## The downward pass -/

namespace Sweep

/-- Proper row additions among the rows that have no pivot yet. -/
def OnFreeRows (s : Sweep) (t u : ℕ) : Prop :=
  s.pivots.length ≤ t ∧ s.pivots.length ≤ u ∧ ProperRows s.work.matrix.rows t u

/-- **What a column does**: nothing, if no free row holds a one in it; otherwise the first free row
gets a one and clears the rows below. -/
theorem step_cases (s : Sweep) (c : ℕ) :
    (s.step c = s ∧ ∀ r, s.pivots.length ≤ r → s.work.matrix.entry r c = false) ∨
    ∃ w, s.pivots.length < s.work.matrix.rows ∧ Work.Steps s.OnFreeRows s.work w ∧
      w.matrix.entry s.pivots.length c = true ∧
      s.step c = ⟨w.clearRows c s.pivots.length (List.range' (s.pivots.length + 1)
        (s.work.matrix.rows - (s.pivots.length + 1))), s.pivots ++ [c]⟩ := by
  cases hfind : (List.range' s.pivots.length (s.work.matrix.rows - s.pivots.length)).find?
      (s.work.matrix.entry · c) with
  | none =>
    refine .inl ⟨by simp [step, hfind], ?_⟩
    intro r hr
    rcases lt_or_ge r s.work.matrix.rows with hlt | hge
    · have := List.find?_eq_none.mp hfind r (List.mem_range'_1.mpr ⟨hr, by omega⟩)
      simpa using this
    · exact ParityMatrix.entry_eq_false fun hlt => absurd hlt.1 (Nat.not_lt_of_le hge)
  | some found =>
    have hmem := List.mem_range'_1.mp (List.mem_of_find?_eq_some hfind)
    have hone : s.work.matrix.entry found c = true := by simpa using List.find?_some hfind
    have hlt : s.pivots.length < s.work.matrix.rows := by omega
    refine .inr ⟨if found = s.pivots.length then s.work else s.work.addRow s.pivots.length found,
      hlt, ?_, ?_, by simp [step, hfind]⟩
    · split
      · exact Work.Steps.refl _
      · next hne =>
        refine Work.steps_addRow ⟨le_rfl, hmem.1, hlt, ?_, Ne.symm hne⟩ _
        change found < s.work.matrix.rows
        omega
    · split
      · next heq => rwa [← heq]
      · next hne =>
        -- the rows before the found one held no one
        have hfirst : s.work.matrix.entry s.pivots.length c = false := by
          have hbefore := (List.find?_range'_eq_some.mp hfind).2.2 s.pivots.length le_rfl
            (by omega)
          simpa using hbefore
        change (s.work.matrix.addRow s.pivots.length found).entry s.pivots.length c = true
        rw [ParityMatrix.entry_addRow, if_pos ⟨rfl, hlt⟩, hfirst, hone]
        rfl

/-- A column adds rows into free rows only. -/
theorem steps_step (s : Sweep) (c : ℕ) : Work.Steps s.OnFreeRows s.work (s.step c).work := by
  rcases step_cases s c with ⟨heq, _⟩ | ⟨w, hlt, hsteps, _, heq⟩
  · rw [heq]
    exact Work.Steps.refl _
  · rw [heq]
    refine hsteps.trans (Work.steps_clearRows _ _ ?_)
    intro r hr
    have hr := List.mem_range'_1.mp hr
    have hrn : r < s.work.matrix.rows := by omega
    exact ⟨by omega, le_rfl, hrn, hlt, Nat.ne_of_gt hr.1⟩

/-- **One column of the downward pass** keeps the echelon form and takes in the column. -/
theorem step_echelonTo {s : Sweep} {c : ℕ} (h : s.work.matrix.EchelonTo s.pivots c) :
    (s.step c).work.matrix.EchelonTo (s.step c).pivots (c + 1) := by
  have hsteps := steps_step s c
  rcases step_cases s c with ⟨heq, hzero⟩ | ⟨w, hlt, hw, hpivot, heq⟩
  · rw [heq]
    exact h.skip hzero
  · have hbelow : ∀ r ∈ List.range' (s.pivots.length + 1)
        (s.work.matrix.rows - (s.pivots.length + 1)), r < w.matrix.rows := by
      intro r hr
      have := List.mem_range'_1.mp hr
      have := hw.rows_eq
      omega
    have hclear := w.entry_clearRows c (List.nodup_range' 1)
      (by simp : s.pivots.length ∉ List.range' (s.pivots.length + 1) _) hbelow
    -- the rows with pivots are no targets, and the others are zero before the column
    have hkeep : ∀ r, r < s.pivots.length → ∀ j,
        (s.step c).work.matrix.entry r j = s.work.matrix.entry r j := fun r hr j =>
      hsteps.entry_eq_of_notMem (S := {r | s.pivots.length ≤ r}) (fun _ _ hE => hE.1)
        (Nat.not_le_of_lt hr) j
    have hzero : ∀ r, s.pivots.length ≤ r → ∀ j, j < c →
        (s.step c).work.matrix.entry r j = false := by
      intro r hr j hj
      rw [hsteps.column_eq (S := {r | s.pivots.length ≤ r}) (fun _ _ hE => hE.2.1)
        (fun u hu => h.entry_eq_false hu hj)]
      exact h.entry_eq_false hr hj
    have hrows := hsteps.rows_eq
    rw [heq] at hkeep hzero hrows ⊢
    refine h.snoc hrows hlt hkeep hzero ?_ ?_
    · rw [hclear, if_neg (by simp)]
      exact hpivot
    · intro r hr
      rw [hclear, hpivot]
      split
      · next hcond => rw [hcond.2]; rfl
      · next hcond =>
        rcases lt_or_ge r s.work.matrix.rows with hlt | hge
        · rw [Bool.eq_false_iff]
          exact fun hone => hcond ⟨List.mem_range'_1.mpr ⟨hr, by omega⟩, hone⟩
        · exact ParityMatrix.entry_eq_false fun h => absurd h.1 (by have := hw.rows_eq; omega)

/-- The downward pass over the first `c` columns. -/
theorem foldl_step_echelonTo (M : ParityMatrix) (c : ℕ) :
    let s := (List.range c).foldl step ⟨Work.start M, []⟩
    s.work.matrix.EchelonTo s.pivots c ∧ Work.Steps (ProperRows M.rows) (Work.start M) s.work := by
  induction c with
  | zero => exact ⟨M.echelonTo_zero, Work.Steps.refl _⟩
  | succ c ih =>
    obtain ⟨hechelon, hsteps⟩ := ih
    rw [List.range_succ, List.foldl_append]
    refine ⟨step_echelonTo hechelon, hsteps.trans ((steps_step _ c).mono ?_)⟩
    intro t u htu
    have hproper := htu.2.2
    rw [hsteps.rows_eq] at hproper
    exact hproper

/-- The downward pass makes proper row additions. -/
theorem forward_steps (M : ParityMatrix) :
    Work.Steps (ProperRows M.rows) (Work.start M) (forward M).work :=
  (foldl_step_echelonTo M M.cols).2

/-- **The downward pass reaches an echelon form.** -/
theorem forward_echelonTo (M : ParityMatrix) :
    (forward M).work.matrix.EchelonTo (forward M).pivots M.cols :=
  (foldl_step_echelonTo M M.cols).1

/-! ## The upward pass -/

/-- **One pivot of the upward pass**: its row goes into every other row with a one in its column,
since there is none below. -/
theorem clearRows_clear {w : Work} {pivots : List ℕ} {c k p : ℕ}
    (h : w.matrix.EchelonTo pivots c) (hk : w.matrix.ClearedFrom pivots (k + 1))
    (hp : pivots[k]? = some p) :
    (w.clearRows p k (List.range k)).matrix.EchelonTo pivots c ∧
      (w.clearRows p k (List.range k)).matrix.ClearedFrom pivots k := by
  have hlt : k < w.matrix.rows := by
    obtain ⟨hlt, _⟩ := List.getElem?_eq_some_iff.mp hp
    exact lt_of_lt_of_le hlt h.length_le
  have hclear := w.entry_clearRows p List.nodup_range (by simp : k ∉ List.range k)
    fun r hr => lt_trans (List.mem_range.mp hr) hlt
  have hsteps : Work.Steps (fun _ _ => True) w (w.clearRows p k (List.range k)) :=
    w.steps_clearRows p fun _ _ => trivial
  have hrows := hsteps.rows_eq
  refine h.clear hk hp hrows ?_
  intro r j
  rw [hclear]
  refine if_congr ?_ rfl rfl
  rw [List.mem_range]
  refine and_congr_left fun hone => ⟨fun hrk => Nat.ne_of_lt hrk, fun hrk => ?_⟩
  by_contra hge
  rw [h.entry_below hp (by omega)] at hone
  cases hone

/-- The upward pass over the first pivots, when the later ones are cleared. -/
theorem foldl_clearRows_clear {pivots : List ℕ} {c : ℕ} (first : List ℕ) :
    ∀ (rest : List ℕ) (w : Work), pivots = first ++ rest → w.matrix.EchelonTo pivots c →
      w.matrix.ClearedFrom pivots first.length →
      let w' := first.zipIdx.reverse.foldl (fun w x => w.clearRows x.1 x.2 (List.range x.2)) w
      w'.matrix.EchelonTo pivots c ∧ w'.matrix.ClearedFrom pivots 0 ∧
        Work.Steps (ProperRows w.matrix.rows) w w' := by
  induction first using List.reverseRecOn with
  | nil => exact fun _ w _ h hcleared => ⟨h, hcleared, Work.Steps.refl w⟩
  | append_singleton first p ih =>
    intro rest w hpivots h hcleared
    have hp : pivots[first.length]? = some p := by
      rw [hpivots, List.append_assoc, List.getElem?_append_right le_rfl, Nat.sub_self]
      rfl
    have hlt : first.length < w.matrix.rows := by
      obtain ⟨hlt, _⟩ := List.getElem?_eq_some_iff.mp hp
      exact lt_of_lt_of_le hlt h.length_le
    rw [List.length_append, List.length_singleton] at hcleared
    obtain ⟨hechelon, hclear⟩ := clearRows_clear h hcleared hp
    have hsteps : Work.Steps (ProperRows w.matrix.rows) w
        (w.clearRows p first.length (List.range first.length)) := by
      refine w.steps_clearRows p ?_
      intro r hr
      have hr := List.mem_range.mp hr
      exact ⟨lt_trans hr hlt, hlt, Nat.ne_of_lt hr⟩
    rw [List.zipIdx_append, List.reverse_append]
    obtain ⟨h₁, h₂, h₃⟩ := ih ([p] ++ rest) (w.clearRows p first.length (List.range first.length))
      (by rw [hpivots, List.append_assoc]) hechelon hclear
    rw [hsteps.rows_eq] at h₃
    have hzip : ([p].zipIdx (0 + first.length)).reverse = [(p, first.length)] := by simp
    rw [hzip]
    exact ⟨h₁, h₂, hsteps.trans h₃⟩

end Sweep

/-! ## Both passes -/

/-- Gaussian elimination makes proper row additions. -/
theorem gauss_steps (full : Bool) (M : ParityMatrix) :
    Work.Steps (ProperRows M.rows) (Work.start M) (gauss full M).1 := by
  have hforward := Sweep.forward_steps M
  rw [gauss_eq]
  cases full with
  | false => exact hforward
  | true =>
    obtain ⟨_, _, hsteps⟩ := Sweep.foldl_clearRows_clear (Sweep.forward M).pivots [] _ (by simp)
      (Sweep.forward_echelonTo M) (ParityMatrix.clearedFrom_length _ _)
    rw [hforward.rows_eq] at hsteps
    exact hforward.trans hsteps

/-- **Gaussian elimination reaches a reduced echelon form.** -/
theorem gauss_reducedEchelon (M : ParityMatrix) :
    (gauss true M).1.matrix.ReducedEchelon (Sweep.forward M).pivots := by
  obtain ⟨hechelon, hclear, _⟩ := Sweep.foldl_clearRows_clear (Sweep.forward M).pivots [] _
    (by simp) (Sweep.forward_echelonTo M) (ParityMatrix.clearedFrom_length _ _)
  have hcols : (gauss true M).1.matrix.cols = M.cols := (gauss_steps true M).cols_eq
  rw [gauss_eq] at hcols ⊢
  refine ⟨?_, hclear⟩
  rw [hcols]
  exact hechelon

/-- **The reduced form does not depend on the row additions**: proper ones that reach a reduced form
reach the one of Gaussian elimination, with as many pivots. -/
theorem gauss_unique {M : ParityMatrix} {ops : List RowAddition} {pivots : List ℕ}
    (hops : ∀ op ∈ ops, op.target ≠ op.source) (h : (M.addRows ops).ReducedEchelon pivots) :
    M.addRows ops = (gauss true M).1.matrix ∧ pivots.length = (gauss true M).2 := by
  obtain ⟨ops', hproper, _, hmatrix⟩ := (gauss_steps true M).exists_addRows
  have hspace : (M.addRows ops).rowSpace = (gauss true M).1.matrix.rowSpace := by
    rw [hmatrix, ParityMatrix.rowSpace_addRows hops]
    exact (ParityMatrix.rowSpace_addRows fun op hop => (hproper op hop).2.2).symm
  obtain ⟨hpivots, heq⟩ := h.unique (gauss_reducedEchelon M)
    ((M.rows_addRows ops).trans (gauss_steps true M).rows_eq.symm)
    ((M.cols_addRows ops).trans (gauss_steps true M).cols_eq.symm) hspace
  refine ⟨heq, ?_⟩
  rw [hpivots, length_pivots, gauss_rank]

namespace ParityMatrix

/-! ## Rank and inverse -/

/-- **The number of pivots is the rank.** -/
theorem rank_eq_rank_toMatrix (M : ParityMatrix) :
    M.rank = (M.toMatrix M.rows M.cols).rank := by
  have hsteps := Sweep.forward_steps M
  obtain ⟨ops, hproper, _, hmatrix⟩ := hsteps.exists_addRows
  have hechelon := Sweep.forward_echelonTo M
  have hcols : (Sweep.forward M).work.matrix.cols = M.cols := hsteps.cols_eq
  have hrows : (Sweep.forward M).work.matrix.rows = M.rows := hsteps.rows_eq
  rw [← hcols] at hechelon
  calc M.rank = (Sweep.forward M).pivots.length := (length_pivots M).symm
    _ = ((Sweep.forward M).work.matrix.toMatrix _ _).rank := hechelon.rank_eq.symm
    _ = ((M.addRows ops).toMatrix M.rows M.cols).rank := by
        rw [hrows, hcols, hmatrix]
        rfl
    _ = (M.toMatrix M.rows M.cols).rank :=
        rank_toMatrix_addRows fun op hop => (hproper op hop).2.2

/-- Full reduction of a square matrix of full rank reaches the identity. -/
theorem gauss_eq_identity {M : ParityMatrix} (hsquare : M.cols = M.rows)
    (hrank : M.rank = M.rows) : (gauss true M).1.matrix = identity M.rows := by
  have hrows : (gauss true M).1.matrix.rows = M.rows := (gauss_steps true M).rows_eq
  have hcols : (gauss true M).1.matrix.cols = M.cols := (gauss_steps true M).cols_eq
  have hreduced := gauss_reducedEchelon M
  have := hreduced.eq_identity (by rw [length_pivots, hrank, hrows]) (by rw [hrows, hcols, hsquare])
  rwa [hrows] at this

/-- **Invertible means square and of full rank.** -/
theorem isInvertible_iff {M : ParityMatrix} :
    M.IsInvertible ↔ M.cols = M.rows ∧ M.rank = M.rows := by
  constructor
  · rintro ⟨hsquare, N, _, _, hMN, _⟩
    refine ⟨hsquare, ?_⟩
    have hunit : IsUnit (M.toMatrix M.rows M.rows) := by
      refine IsUnit.of_mul_eq_one (N.toMatrix M.rows M.rows) ?_
      rw [← toMatrix_mul hsquare, hMN, toMatrix_identity]
    rw [rank_eq_rank_toMatrix, hsquare, Matrix.rank_of_isUnit _ hunit, Fintype.card_fin]
  · rintro ⟨hsquare, hrank⟩
    obtain ⟨ops, hproper, _, hmatrix⟩ := (gauss_steps true M).exists_addRows
    have hid : M.addRows ops = identity M.rows :=
      hmatrix.symm.trans (gauss_eq_identity hsquare hrank)
    have hreduced : (M.addRows ops).IsInvertible := hid ▸ isInvertible_identity M.rows
    exact hreduced.of_addRows fun op hop => (hproper op hop).2.2

/-- The matrix beside the elimination goes through its row additions. -/
theorem inverse?_eq_ite (M : ParityMatrix) : M.inverse? =
    if M.cols = M.rows ∧ M.rank = M.rows then
      some ((identity M.rows).addRows (rowAdditions (gauss true M).1.events)) else none := by
  have hrecord : transcribe (fun N t s => (.ok (N.addRow t s) : Except Empty ParityMatrix))
      (gauss true M).1.events (identity M.rows) =
        ⟨(identity M.rows).addRows (rowAdditions (gauss true M).1.events), (gauss true M).1.events,
          none⟩ :=
    transcribe_eq_foldl (f := ParityMatrix.addRow) (P := fun _ => True) trivial
      fun _ _ _ _ => ⟨rfl, trivial⟩
  unfold inverse?
  dsimp only
  rw [gaussWith_eq, hrecord, gauss_rank]
  by_cases hsquare : M.cols = M.rows
  · simp [isSquare, hsquare, Transcript.outcome]
  · simp [isSquare, hsquare, Ne.symm hsquare]

/-- **The computed inverse.** -/
theorem IsInvertible.inverse?_eq {M : ParityMatrix} (h : M.IsInvertible) :
    ∃ N, M.inverse? = some N ∧ N.rows = M.rows ∧ N.cols = M.rows ∧
      N.mul M = identity M.rows ∧ M.mul N = identity M.rows := by
  obtain ⟨hsquare, hrank⟩ := isInvertible_iff.mp h
  obtain ⟨ops, hproper, hlog, hmatrix⟩ := (gauss_steps true M).exists_addRows
  have hlog : rowAdditions (gauss true M).1.events = ops := hlog
  have hid : M.addRows ops = identity M.rows := hmatrix.symm.trans (gauss_eq_identity hsquare hrank)
  refine ⟨(identity M.rows).addRows ops, ?_, rows_addRows _ _, cols_addRows _ _, ?_, ?_⟩
  · rw [inverse?_eq_ite, if_pos ⟨hsquare, hrank⟩, hlog]
  · rw [addRows_mul, identity_mul rfl, hid]
  · have hleft : ((identity M.rows).addRows ops).mul M = identity M.rows := by
      rw [addRows_mul, identity_mul rfl, hid]
    obtain ⟨_, N, hNr, hNc, hMN, _⟩ := h
    -- a left inverse equals a right inverse
    have hcols : ((identity M.rows).addRows ops).cols = M.rows := cols_addRows _ _
    have heq : (identity M.rows).addRows ops = N := by
      calc (identity M.rows).addRows ops
          = ((identity M.rows).addRows ops).mul (M.mul N) := by rw [hMN, mul_identity hcols]
        _ = (((identity M.rows).addRows ops).mul M).mul N := (mul_mul hcols).symm
        _ = N := by rw [hleft, identity_mul hNr]
    rw [heq, hMN]

end ParityMatrix

end CnotSynthesis
