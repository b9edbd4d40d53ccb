import CnotSynthesis.Elimination.Reduction
import CnotSynthesis.Proofs.Matrix.RowAdditions

/-! # Steps of an elimination

An elimination takes a work from step to step, and a step is a row addition or a note in the log.

* **`Work.Step E`**, **`Work.Steps E`** — one step, and a run of steps, whose row additions
  `(target, source)` all satisfy `E`.
* **`Steps.exists_addRows`** — a run of steps is a list of row additions, which the log shows and
  the matrix went through.
* **`Steps.entry_eq_of_notMem`**, **`Steps.column_eq`** — what a run leaves alone: the rows that are
  no targets, and the columns that are zero on all sources.
* **`Script.exec_bind`**, **`Script.exec_forM`** — scripts one after another;
  **`Script.exec_after`** — what a script does depends on the matrix alone: started with an older
  log, it does the same and leaves the older log behind its own.
* **`Reduction.Yields`** — a reduction started on a work ends in a result with a given property, or
  in an error, and then `F` holds; **`Reduction.Proceeds`** — it takes steps only, whether it ends
  in a result or in an error. -/

namespace CnotSynthesis

variable {α β : Type}

/-- Nothing happened, so no row was added. -/
@[simp] theorem rowAdditions_nil : rowAdditions [] = [] := rfl

/-- Row additions of a log in two parts. -/
@[simp] theorem rowAdditions_append (xs ys : List Event) :
    rowAdditions (xs ++ ys) = rowAdditions xs ++ rowAdditions ys := List.filterMap_append

namespace Work

/-- A row addition is logged behind the earlier ones. -/
theorem rowAdditions_addRow (w : Work) (t s : ℕ) :
    rowAdditions (w.addRow t s).events = rowAdditions w.events ++ [⟨t, s⟩] := by
  simp [events, addRow, rowAdditions]

/-- Anything else that is noted is no row addition. -/
theorem rowAdditions_note {e : Event} (h : rowAdditions [e] = []) (w : Work) :
    rowAdditions (w.note e).events = rowAdditions w.events := by
  show rowAdditions (e :: w.log).reverse = _
  rw [List.reverse_cons, rowAdditions_append, h, List.append_nil]
  rfl

/-! ## Runs of steps -/

/-- **A step**: a row addition that `E` allows, or a note of something else. -/
inductive Step (E : ℕ → ℕ → Prop) : Work → Work → Prop
  | add (w : Work) {t s : ℕ} (h : E t s) : Step E w (w.addRow t s)
  | note (w : Work) {e : Event} (h : rowAdditions [e] = []) : Step E w (w.note e)

/-- A run of steps. -/
def Steps (E : ℕ → ℕ → Prop) : Work → Work → Prop := Relation.ReflTransGen (Step E)

section Runs

variable {E F : ℕ → ℕ → Prop} {w w' w'' : Work}

/-- No step at all. -/
theorem Steps.refl (w : Work) : Steps E w w := Relation.ReflTransGen.refl

/-- Runs one after the other. -/
theorem Steps.trans (h : Steps E w w') (h' : Steps E w' w'') : Steps E w w'' :=
  Relation.ReflTransGen.trans h h'

/-- One row addition is a run. -/
theorem steps_addRow {t s : ℕ} (h : E t s) (w : Work) : Steps E w (w.addRow t s) :=
  Relation.ReflTransGen.single (.add w h)

/-- One note is a run. -/
theorem steps_note {e : Event} (h : rowAdditions [e] = []) (w : Work) : Steps E w (w.note e) :=
  Relation.ReflTransGen.single (.note w h)

/-- More row additions may be allowed. -/
theorem Steps.mono (h : Steps E w w') (hEF : ∀ t s, E t s → F t s) : Steps F w w' := by
  refine Relation.ReflTransGen.mono ?_ _ _ h
  intro a b hab
  cases hab with
  | add hE => exact .add a (hEF _ _ hE)
  | note he => exact .note a he

/-- A pass over a list that takes steps at each element takes steps. -/
theorem steps_foldl {γ : Type} {f : Work → γ → Work} {xs : List γ}
    (h : ∀ x ∈ xs, ∀ w, Steps E w (f w x)) (w : Work) : Steps E w (xs.foldl f w) := by
  induction xs generalizing w with
  | nil => exact Steps.refl w
  | cons x xs ih =>
    have hfirst : Steps E w (f w x) := h x List.mem_cons_self w
    exact hfirst.trans (ih (fun y hy => h y (List.mem_cons_of_mem _ hy)) (f w x))

/-- **A run is a list of row additions**: the log shows them, and the matrix went through them. -/
theorem Steps.exists_addRows (h : Steps E w w') : ∃ ops : List RowAddition,
    (∀ op ∈ ops, E op.target op.source) ∧
      rowAdditions w'.events = rowAdditions w.events ++ ops ∧
      w'.matrix = w.matrix.addRows ops := by
  induction h with
  | refl => exact ⟨[], by simp, by simp, rfl⟩
  | @tail w₁ _ _ step ih =>
    obtain ⟨ops, hops, hlog, hmatrix⟩ := ih
    cases step with
    | @add t s hE =>
      refine ⟨ops ++ [⟨t, s⟩], ?_, ?_, ?_⟩
      · intro op hop
        rcases List.mem_append.mp hop with hop | hop
        · exact hops op hop
        · rw [List.mem_singleton.mp hop]
          exact hE
      · rw [rowAdditions_addRow, hlog, List.append_assoc]
      · rw [ParityMatrix.addRows_append, ← hmatrix]
        rfl
    | @note e he =>
      exact ⟨ops, hops, (rowAdditions_note he w₁).trans hlog, hmatrix⟩

/-! ## What a run leaves alone -/

/-- Steps from `M` explain the matrix they arrive at. -/
theorem Steps.explains {M : ParityMatrix} (h : Steps E (start M) w) : w.Explains M := by
  obtain ⟨ops, _, hlog, hmatrix⟩ := h.exists_addRows
  have hlog : rowAdditions w.events = ops := hlog
  unfold Explains
  rw [hlog]
  exact hmatrix

/-- Row additions keep the number of rows. -/
theorem Steps.rows_eq (h : Steps E w w') : w'.matrix.rows = w.matrix.rows := by
  obtain ⟨ops, _, _, hmatrix⟩ := h.exists_addRows
  rw [hmatrix, ParityMatrix.rows_addRows]

/-- Row additions keep the number of columns. -/
theorem Steps.cols_eq (h : Steps E w w') : w'.matrix.cols = w.matrix.cols := by
  obtain ⟨ops, _, _, hmatrix⟩ := h.exists_addRows
  rw [hmatrix, ParityMatrix.cols_addRows]

/-- **Rows that are no targets stay as they are.** -/
theorem Steps.entry_eq_of_notMem {S : Set ℕ} (h : Steps E w w') (hE : ∀ t s, E t s → t ∈ S) {r : ℕ}
    (hr : r ∉ S) (c : ℕ) : w'.matrix.entry r c = w.matrix.entry r c := by
  obtain ⟨ops, hops, _, hmatrix⟩ := h.exists_addRows
  rw [hmatrix]
  refine ParityMatrix.entry_addRows_of_notMem ?_ c
  rintro op hop rfl
  exact hr (hE _ _ (hops op hop))

/-- **Columns that are zero on all sources stay as they are.** -/
theorem Steps.column_eq {S : Set ℕ} (h : Steps E w w') (hE : ∀ t s, E t s → s ∈ S) {c : ℕ}
    (hzero : ∀ r ∈ S, w.matrix.entry r c = false) (r : ℕ) :
    w'.matrix.entry r c = w.matrix.entry r c := by
  induction h generalizing r with
  | refl => rfl
  | @tail w₁ _ _ step ih =>
    cases step with
    | @add t s hts =>
      have hs : w₁.matrix.entry s c = false := (ih s).trans (hzero s (hE t s hts))
      have hadd : (w₁.matrix.addRow t s).entry r c = w₁.matrix.entry r c := by
        rw [ParityMatrix.entry_addRow, hs]
        split
        · next hr => rw [hr.1, Bool.bne_false]
        · rfl
      exact hadd.trans (ih r)
    | note => exact ih r

/-- A run of additions between different rows keeps a matrix invertible. -/
theorem Steps.isInvertible (h : Steps E w w') (hE : ∀ t s, E t s → t ≠ s)
    (hw : w.matrix.IsInvertible) : w'.matrix.IsInvertible := by
  obtain ⟨ops, hops, _, hmatrix⟩ := h.exists_addRows
  rw [hmatrix]
  exact hw.addRows fun op hop => hE _ _ (hops op hop)

end Runs

end Work

/-! ## Scripts -/

namespace Work

/-- The work with an older log. -/
def after (w : Work) (log : List Event) : Work := ⟨w.matrix, w.log ++ log⟩

/-- An older log is not seen in the matrix. -/
@[simp] theorem matrix_after (w : Work) (log : List Event) : (w.after log).matrix = w.matrix := rfl

/-- The events of the older log come first. -/
theorem events_after (w : Work) (log : List Event) :
    (w.after log).events = log.reverse ++ w.events := List.reverse_append

/-- Every work is a fresh one with its log. -/
theorem start_after (w : Work) : (start w.matrix).after w.log = w := rfl

end Work

/-- A milestone is no row addition. -/
theorem Milestone.rowAdditions_event (m : Milestone) : rowAdditions [m.event] = [] := by
  cases m <;> rfl

namespace Script

variable {ε σ : Type}

/-- An accepted row addition leads on. -/
theorem runOn_add_of_ok {b : Bench ε σ} {x y : σ} {t s : ℕ} (h : b.addRow x t s = .ok y)
    (rest : Script ε α) : (add t s rest).runOn b x = rest.runOn b y := by
  simp only [runOn, h]

/-- A script ends where a row addition is rejected. -/
theorem runOn_add_of_error {b : Bench ε σ} {x : σ} {t s : ℕ} {e : ε}
    (h : b.addRow x t s = .error e) (rest : Script ε α) :
    (add t s rest).runOn b x = (.error e, x) := by
  simp only [runOn, h]

/-- **One script after another**, on any bench. -/
theorem runOn_bind (b : Bench ε σ) (r : Script ε α) (f : α → Script ε β) (x : σ) :
    (r >>= f).runOn b x = match r.runOn b x with
      | (.ok a, y) => (f a).runOn b y
      | (.error e, y) => (.error e, y) := by
  change (r.bind f).runOn b x = _
  induction r generalizing x with
  | done a => rfl
  | stop e => rfl
  | look rest ih => exact ih (b.matrix x) x
  | add t s rest ih =>
    unfold bind
    cases h : b.addRow x t s with
    | error e => rw [runOn_add_of_error h, runOn_add_of_error h]
    | ok y =>
      rw [runOn_add_of_ok h, runOn_add_of_ok h]
      exact ih y
  | reach m rest ih => exact ih (b.hear x m)

/-- **One script after the other**: the second one goes on where the first one stopped, unless that
failed. -/
theorem exec_bind (r : Script ε α) (f : α → Script ε β) (w : Work) :
    (r >>= f).exec w = match r.exec w with
      | (.ok a, w') => (f a).exec w'
      | (.error e, w') => (.error e, w') := by
  unfold exec
  rw [runOn_bind]
  rcases r.runOn (Work.bench ε) w with ⟨_ | _, _⟩ <;> rfl

/-- A script that is done leaves the work as it is. -/
@[simp] theorem exec_pure (a : α) (w : Work) : (pure a : Script ε α).exec w = (.ok a, w) := rfl

/-- Looking at the matrix leaves the work as it is. -/
@[simp] theorem exec_matrix (w : Work) :
    (matrix : Script ε ParityMatrix).exec w = (.ok w.matrix, w) := rfl

/-- A row addition of a script is one of the work. -/
@[simp] theorem exec_addRow (t s : ℕ) (w : Work) :
    (addRow t s : Script ε Unit).exec w = (.ok (), w.addRow t s) := rfl

/-- A computation on the side leaves the work as it is. -/
theorem exec_ofExcept (x : Except ε α) (w : Work) : (ofExcept x).exec w = (x, w) := by
  cases x <;> rfl

/-- **A script for each element of a list**, each of which does what `g` says. -/
theorem exec_forM {γ : Type} {f : γ → Script ε PUnit} {g : Work → γ → Work}
    (h : ∀ x w, (f x).exec w = (.ok ⟨⟩, g w x)) (xs : List γ) (w : Work) :
    (xs.forM f).exec w = (.ok ⟨⟩, xs.foldl g w) := by
  induction xs generalizing w with
  | nil => rfl
  | cons x xs ih =>
    change (f x >>= fun _ => xs.forM f).exec w = _
    rw [exec_bind, h]
    exact ih (g w x)

/-- **A script does not read the log.** -/
theorem exec_after (r : Script ε α) (w : Work) (log : List Event) :
    r.exec (w.after log) = ((r.exec w).1, (r.exec w).2.after log) := by
  induction r generalizing w with
  | done a => rfl
  | stop e => rfl
  | look rest ih => exact ih w.matrix w
  | add t s rest ih => exact ih (w.addRow t s)
  | reach m rest ih => exact ih (w.note m.event)

/-- From any work as from a fresh one: the same result, and the same events after the old ones. -/
theorem exec_eq (r : Script ε α) (w : Work) :
    r.exec w = ((r.exec (.start w.matrix)).1, (r.exec (.start w.matrix)).2.after w.log) := by
  rw [← exec_after, Work.start_after]

/-- The row additions from a fresh work are logged behind the earlier ones. -/
theorem rowAdditions_exec (r : Script ε α) (w : Work) :
    rowAdditions (r.exec w).2.events =
      rowAdditions w.events ++ rowAdditions (r.exec (.start w.matrix)).2.events := by
  rw [exec_eq r w]
  dsimp only
  rw [Work.events_after, rowAdditions_append]
  rfl

/-- **A script takes steps.** -/
theorem steps_exec (r : Script ε α) (w : Work) : Work.Steps (fun _ _ => True) w (r.exec w).2 := by
  induction r generalizing w with
  | done a => exact .refl w
  | stop e => exact .refl w
  | look rest ih => exact ih w.matrix w
  | add t s rest ih => exact (Work.steps_addRow trivial w).trans (ih (w.addRow t s))
  | reach m rest ih => exact (Work.steps_note m.rowAdditions_event w).trans (ih (w.note m.event))

end Script

/-! ## Reductions -/

/-- A reduction carried out on a matrix alone. -/
structure Plan (α : Type) where
  work : Work
  outcome : Except SynthesisError α

namespace Reduction

/-- Carry out a reduction of `M` alone. -/
def plan (r : Reduction α) (M : ParityMatrix) : Plan α :=
  ⟨(r.exec (Work.start M)).2, (r.exec (Work.start M)).1⟩

/-- A plan has the log and the outcome of the reduction carried out on a fresh work. -/
theorem plan_eq (r : Reduction α) (M : ParityMatrix) :
    r.plan M = ⟨(r.exec (Work.start M)).2, (r.exec (Work.start M)).1⟩ := rfl

/-- A result or an error computed apart from the work. -/
@[simp] theorem exec_lift (x : Except SynthesisError α) (w : Work) :
    (liftM x : Reduction α).exec w = (x, w) := Script.exec_ofExcept x w

/-- Looking at the matrix leaves the work as it is. -/
@[simp] theorem exec_matrix (w : Work) : matrix.exec w = (.ok w.matrix, w) := rfl

/-- A row addition of a reduction is one of the work. -/
@[simp] theorem exec_addRow (t s : ℕ) (w : Work) :
    (addRow t s).exec w = (.ok (), w.addRow t s) := rfl

/-- A milestone is noted. -/
@[simp] theorem exec_report (m : Milestone) (w : Work) :
    (report m).exec w = (.ok (), w.note m.event) := rfl

/-- **The triple of a reduction**: started on `w` it ends in a result with the property `Q`, or in
an error, and then `F` holds. With `F` false it is total correctness, with `F` true partial. -/
def Yields (F : Prop) (r : Reduction α) (w : Work) (Q : α → Work → Prop) : Prop :=
  match r.exec w with
  | (.ok a, w') => Q a w'
  | (.error _, _) => F

section Triples

variable {F : Prop} {r : Reduction α} {f : α → Reduction β} {w : Work} {Q R : α → Work → Prop}
  {S : β → Work → Prop}

/-- **One reduction after the other**: what the first one leaves is what the second one starts
from. -/
theorem Yields.bind (h : Yields F r w Q) (hf : ∀ a w', Q a w' → Yields F (f a) w' S) :
    Yields F (r >>= f) w S := by
  unfold Yields at h ⊢
  rw [Script.exec_bind]
  rcases hr : r.exec w with ⟨_ | a, w'⟩
  · rw [hr] at h
    exact h
  · rw [hr] at h
    exact hf a w' h

/-- What is left may be said in fewer words. -/
theorem Yields.mono (h : Yields F r w Q) (hQ : ∀ a w', Q a w' → R a w') : Yields F r w R := by
  unfold Yields at h ⊢
  rcases hr : r.exec w with ⟨_ | a, w'⟩
  · rw [hr] at h
    exact h
  · rw [hr] at h
    exact hQ a w' h

/-- Done, with what is there. -/
theorem yields_pure {a : α} (h : Q a w) : Yields F (pure a) w Q := h

/-- What holds anyway holds of a result. -/
theorem yields_of_forall (h : ∀ a w', Q a w') : Yields True r w Q := by
  unfold Yields
  rcases r.exec w with ⟨_ | a, w'⟩
  · trivial
  · exact h a w'

/-- A reduction that is known to go through. -/
theorem yields_of_exec {a : α} {w' : Work} (hr : r.exec w = (.ok a, w')) (h : Q a w') :
    Yields F r w Q := by
  unfold Yields
  rwa [hr]

/-- What follows a reduction that is known starts where that one ends. -/
theorem yields_bind_of_exec {a : α} {w' : Work} (hr : r.exec w = (.ok a, w'))
    (h : Yields F (f a) w' S) : Yields F (r >>= f) w S := by
  unfold Yields at h ⊢
  rwa [Script.exec_bind, hr]

/-- A computation on the side succeeds or is the failure that is allowed. -/
theorem yields_lift {x : Except SynthesisError α} (herror : ∀ e, x = .error e → F)
    (hok : ∀ a, x = .ok a → Q a w) : Yields F (liftM x) w Q := by
  unfold Yields
  rw [exec_lift]
  cases x with
  | error e => exact herror e rfl
  | ok a => exact hok a rfl

/-- Looking at the matrix comes first. -/
theorem yields_matrix_bind {f : ParityMatrix → Reduction β} (h : Yields F (f w.matrix) w S) :
    Yields F (matrix >>= f) w S := yields_bind_of_exec (exec_matrix w) h

/-- What follows an attempt has the value of it, and `F` is owed only if there is none. -/
theorem yields_attempt_bind {x : Except StructuralCause α} {f : α → Reduction β}
    (herror : ∀ e, x = .error e → F) (hok : ∀ a, x = .ok a → Yields F (f a) w S) :
    Yields F (attempt x >>= f) w S := by
  cases x with
  | error e => exact herror e rfl
  | ok a => exact hok a rfl

/-- What is left by a reduction that went through. -/
theorem Yields.of_exec_ok (h : Yields F r w Q) {a : α} {w' : Work} (ha : r.exec w = (.ok a, w')) :
    Q a w' := by
  unfold Yields at h
  rwa [ha] at h

/-- A reduction that failed has shown that it may. -/
theorem Yields.of_exec_error (h : Yields F r w Q) {e : SynthesisError} {w' : Work}
    (he : r.exec w = (.error e, w')) : F := by
  unfold Yields at h
  rwa [he] at h

/-- What a plan that succeeds has yielded. -/
theorem Yields.of_ok {M : ParityMatrix} (h : Yields F r (Work.start M) Q) {a : α}
    (ha : (r.plan M).outcome = .ok a) : Q a (r.plan M).work := by
  rw [plan_eq] at ha ⊢
  unfold Yields at h
  rcases hr : r.exec (Work.start M) with ⟨_ | b, w⟩
  · rw [hr] at ha
    cases ha
  · rw [hr] at ha h
    cases ha
    exact h

/-- A plan for which no failure is excused succeeds. -/
theorem Yields.exists_ok {M : ParityMatrix} (h : Yields F r (Work.start M) Q) (hF : ¬ F) :
    ∃ a, (r.plan M).outcome = .ok a := by
  rw [plan_eq]
  unfold Yields at h
  rcases hr : r.exec (Work.start M) with ⟨_ | a, w⟩
  · rw [hr] at h
    exact absurd h hF
  · exact ⟨a, rfl⟩

/-- A reduction that cannot fail goes through. -/
theorem Yields.exec_eq (h : Yields False r w Q) : ∃ a w', r.exec w = (.ok a, w') ∧ Q a w' := by
  unfold Yields at h
  rcases hr : r.exec w with ⟨_ | a, w'⟩
  · rw [hr] at h
    exact h.elim
  · rw [hr] at h
    exact ⟨a, w', rfl, h⟩

end Triples

/-! ## Reductions take steps -/

/-- **A reduction takes steps** on every work, whether it ends in a result or in an error. -/
def Proceeds (E : ℕ → ℕ → Prop) (r : Reduction α) : Prop := ∀ w, Work.Steps E w (r.exec w).2

section Proceeding

variable {E : ℕ → ℕ → Prop} {r : Reduction α} {f : α → Reduction β}

/-- Done, without a step. -/
theorem proceeds_pure (a : α) : Proceeds E (pure a) := fun w => Work.Steps.refl w

/-- Failing takes no step. -/
theorem proceeds_fail (cause : StructuralCause) : Proceeds E (fail (α := α) cause) :=
  fun w => Work.Steps.refl w

/-- Stopping takes no step. -/
theorem proceeds_stop (e : SynthesisError) : Proceeds E (Script.stop e : Reduction α) :=
  fun w => Work.Steps.refl w

/-- A computation on the side takes no step. -/
theorem proceeds_lift (x : Except SynthesisError α) : Proceeds E (liftM x : Reduction α) := by
  intro w
  rw [exec_lift]
  exact Work.Steps.refl w

/-- Looking takes no step. -/
theorem proceeds_matrix : Proceeds E matrix := fun w => Work.Steps.refl w

/-- A milestone adds no row. -/
theorem proceeds_report (m : Milestone) : Proceeds E (report m) :=
  Work.steps_note m.rowAdditions_event

/-- A reduction known to go through proceeds as the work does. -/
theorem proceeds_of_exec {a : α} {g : Work → Work} (hr : ∀ w, r.exec w = (.ok a, g w))
    (h : ∀ w, Work.Steps E w (g w)) : Proceeds E r := by
  intro w
  rw [hr]
  exact h w

/-- What follows has to take steps only from the result that there is. -/
theorem steps_exec_bind {w : Work} (hr : Work.Steps E w (r.exec w).2)
    (hf : ∀ a w', r.exec w = (.ok a, w') → Work.Steps E w' ((f a).exec w').2) :
    Work.Steps E w ((r >>= f).exec w).2 := by
  rw [Script.exec_bind]
  rcases h : r.exec w with ⟨_ | a, w'⟩
  · rw [h] at hr
    exact hr
  · rw [h] at hr
    exact hr.trans (hf a w' h)

/-- **One reduction after the other** proceeds if both do. -/
theorem Proceeds.bind (hr : Proceeds E r) (hf : ∀ a, Proceeds E (f a)) : Proceeds E (r >>= f) :=
  fun w => steps_exec_bind (hr w) fun a w' _ => hf a w'

/-- An attempt takes no step of its own. -/
theorem proceeds_attempt_bind {x : Except StructuralCause α}
    (hf : ∀ a, x = .ok a → Proceeds E (f a)) : Proceeds E (attempt x >>= f) := by
  cases x with
  | error e => exact fun w => Work.Steps.refl w
  | ok a => exact hf a rfl

/-- The row additions of a plan: the log shows them, the matrix went through them. -/
theorem Proceeds.exists_addRows (h : Proceeds E r) (M : ParityMatrix) :
    (∀ op ∈ rowAdditions (r.plan M).work.events, E op.target op.source) ∧
      (r.plan M).work.matrix = M.addRows (rowAdditions (r.plan M).work.events) := by
  obtain ⟨ops, hops, hlog, hmatrix⟩ := (h (Work.start M)).exists_addRows
  have hlog : rowAdditions (r.plan M).work.events = ops := hlog
  rw [hlog]
  exact ⟨hops, hmatrix⟩

end Proceeding

end Reduction

end CnotSynthesis
