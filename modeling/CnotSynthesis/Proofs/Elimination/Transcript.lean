import CnotSynthesis.Proofs.Circuit.Parity
import CnotSynthesis.Proofs.Elimination.Steps

/-! # Eliminations beside a companion

A script carried out beside a companion does what it does alone, up to the first row addition that
the companion rejects. So the script may be carried out alone first, and the companion may take note
of the log afterwards.

* **`transcribe record events c`** — the events up to the first rejected row addition, and the
  companion `c` after them.
* **`Script.runOn_eq`** — a script carried out beside a companion is carried out alone and
  transcribed; **`Script.runOn_beside`** and **`Script.runOn_recorder`** are the benches there are.
* **`Plan.record`** — a reduction carried out alone and transcribed in a circuit;
  **`Reduction.record_eq`** — it is the recorded reduction, and a listener makes no difference but
  for the events.
* **`transcribe_recordIn`** — recording events in a circuit puts the accepted row additions in front
  of its gates, and stops at the first one that the circuit rejects. -/

namespace CnotSynthesis

variable {α γ δ ε σ : Type}

/-- The first event is a milestone. -/
theorem rowAdditions_cons_event (m : Milestone) (events : List Event) :
    rowAdditions (m.event :: events) = rowAdditions events := by
  cases m <;> rfl

/-! ## Taking note of a log -/

/-- What a companion made of a list of events. -/
structure Transcript (γ ε : Type) where
  /-- The companion after the accepted row additions. -/
  companion : γ
  /-- The events up to the rejection. -/
  events : List Event
  /-- Why a row addition was rejected, if one was. -/
  rejection : Option ε

/-- Let the companion take note of the row additions among the events. -/
def transcribe (record : γ → ℕ → ℕ → Except ε γ) : List Event → γ → Transcript γ ε
  | [], c => ⟨c, [], none⟩
  | .row t s :: rest, c =>
    match record c t s with
    | .error e => ⟨c, [], some e⟩
    | .ok c' =>
      let after := transcribe record rest c'
      { after with events := .row t s :: after.events }
  | e :: rest, c =>
    let after := transcribe record rest c
    { after with events := e :: after.events }

/-- How an elimination ends whose row additions are transcribed. -/
def Transcript.outcome (t : Transcript γ ε) (wrap : ε → δ) (planned : Except δ α) : Except δ α :=
  match t.rejection with
  | none => planned
  | some e => .error (wrap e)

section Transcribing

variable {record : γ → ℕ → ℕ → Except ε γ} {events : List Event} {c c' : γ} {e : ε} {t s : ℕ}

/-- A row addition that is accepted is reported, and reading goes on. -/
theorem transcribe_row_of_ok (h : record c t s = .ok c') (rest : List Event) :
    transcribe record (.row t s :: rest) c = { transcribe record rest c' with
      events := .row t s :: (transcribe record rest c').events } := by
  simp only [transcribe, h]

/-- A row addition that is rejected ends the transcript. -/
theorem transcribe_row_of_error (h : record c t s = .error e) (rest : List Event) :
    transcribe record (.row t s :: rest) c = ⟨c, [], some e⟩ := by
  simp only [transcribe, h]

/-- A milestone passes by the companion. -/
theorem transcribe_milestone (record : γ → ℕ → ℕ → Except ε γ) (m : Milestone) (rest : List Event)
    (c : γ) : transcribe record (m.event :: rest) c = { transcribe record rest c with
      events := m.event :: (transcribe record rest c).events } := by
  cases m <;> rfl

/-- Without a rejection the transcript has all events. -/
theorem transcribe_events_eq (h : (transcribe record events c).rejection = none) :
    (transcribe record events c).events = events := by
  induction events generalizing c with
  | nil => rfl
  | cons event rest ih =>
    cases event with
    | row t s =>
      cases hr : record c t s with
      | error e =>
        rw [transcribe_row_of_error hr] at h
        cases h
      | ok c' =>
        rw [transcribe_row_of_ok hr] at h ⊢
        exact congrArg _ (ih h)
    | _ => exact congrArg _ (ih h)

/-- **A companion that accepts** goes through the row additions; `P` is what it keeps meanwhile. -/
theorem transcribe_eq_foldl {f : γ → ℕ → ℕ → γ} {P : γ → Prop} (hc : P c)
    (h : ∀ op ∈ rowAdditions events, ∀ c, P c →
      record c op.target op.source = .ok (f c op.target op.source) ∧
        P (f c op.target op.source)) :
    transcribe record events c =
      ⟨(rowAdditions events).foldl (fun c op => f c op.target op.source) c, events, none⟩ := by
  induction events generalizing c with
  | nil => rfl
  | cons event rest ih =>
    cases event with
    | row t s =>
      obtain ⟨hrecord, hP⟩ := h ⟨t, s⟩ List.mem_cons_self c hc
      rw [transcribe_row_of_ok hrecord, ih hP fun op hop => h op (List.mem_cons_of_mem _ hop)]
      rfl
    | _ =>
      -- other events leave the companion alone
      simp only [transcribe, ih hc h]
      rfl

end Transcribing

/-! ## Scripts beside a companion -/

/-- **A bench that keeps a companion**: a state is made of the matrix, of the companion and of what
happened, latest first. -/
structure Bench.Keeps (b : Bench δ σ) (record : γ → ℕ → ℕ → Except ε γ) (wrap : ε → δ)
    (state : ParityMatrix → γ → List Event → σ) : Prop where
  matrix : ∀ M c log, b.matrix (state M c log) = M
  accepts : ∀ {M c c' log t s}, record c t s = .ok c' →
    b.addRow (state M c log) t s = .ok (state (M.addRow t s) c' (.row t s :: log))
  rejects : ∀ {M c e log t s}, record c t s = .error e →
    b.addRow (state M c log) t s = .error (wrap e)
  hear : ∀ M c log m, b.hear (state M c log) m = state M c (m.event :: log)

namespace Script

/-- What follows a row addition happens as on a fresh log. -/
theorem exec_add_start (t s : ℕ) (rest : Script ε α) (M : ParityMatrix) :
    (add t s rest).exec (.start M) = ((rest.exec (.start (M.addRow t s))).1,
      (rest.exec (.start (M.addRow t s))).2.after [.row t s]) :=
  exec_after rest (.start (M.addRow t s)) [.row t s]

/-- A script that first reaches a milestone, on a fresh work. -/
theorem exec_reach_start (m : Milestone) (rest : Script ε α) (M : ParityMatrix) :
    (reach m rest).exec (.start M) = ((rest.exec (.start M)).1,
      (rest.exec (.start M)).2.after [m.event]) :=
  exec_after rest (.start M) [m.event]

/-- **Beside a companion** a script does what it does alone, up to the first rejected row addition,
and that one is not made. -/
theorem runOn_eq {b : Bench δ σ} {record : γ → ℕ → ℕ → Except ε γ} {wrap : ε → δ}
    {state : ParityMatrix → γ → List Event → σ} (hb : b.Keeps record wrap state) (r : Script δ α)
    (M : ParityMatrix) (c : γ) (log : List Event) :
    let t := transcribe record (r.exec (.start M)).2.events c
    r.runOn b (state M c log) = (t.outcome wrap (r.exec (.start M)).1,
      state (M.addRows (rowAdditions t.events)) t.companion (t.events.reverse ++ log)) := by
  induction r generalizing M c log with
  | done a => rfl
  | stop e => rfl
  | look rest ih =>
    change (rest (b.matrix (state M c log))).runOn b (state M c log) = _
    rw [hb.matrix]
    exact ih M M c log
  | add t s rest ih =>
    rw [exec_add_start, Work.events_after, List.reverse_singleton, List.singleton_append]
    cases hr : record c t s with
    | error e =>
      rw [runOn_add_of_error (hb.rejects hr), transcribe_row_of_error hr]
      rfl
    | ok c' =>
      rw [runOn_add_of_ok (hb.accepts hr), transcribe_row_of_ok hr]
      dsimp only
      rw [List.reverse_cons, List.append_assoc]
      exact ih (M.addRow t s) c' (.row t s :: log)
  | reach m rest ih =>
    rw [exec_reach_start, Work.events_after, List.reverse_singleton, List.singleton_append,
      transcribe_milestone]
    dsimp only
    rw [List.reverse_cons, List.append_assoc, rowAdditions_cons_event]
    change rest.runOn b (b.hear (state M c log) m) = _
    rw [hb.hear]
    exact ih M c (m.event :: log)

/-- Beside any companion. -/
theorem runOn_beside (record : γ → ℕ → ℕ → Except ε γ) (r : Script ε α) (M : ParityMatrix) (c : γ) :
    let t := transcribe record (r.exec (.start M)).2.events c
    r.runOn (Bench.beside record) (M, c) =
      (t.outcome id (r.exec (.start M)).1, M.addRows (rowAdditions t.events), t.companion) := by
  have hb : (Bench.beside record).Keeps record id fun M c _ => (M, c) := by
    refine ⟨fun _ _ _ => rfl, ?_, ?_, fun _ _ _ _ => rfl⟩
    · intro M c c' log t s h
      simp [Bench.beside, h, Except.map]
    · intro M c e log t s h
      simp [Bench.beside, h, Except.map]
  exact runOn_eq hb r M c []

/-- On a recorder; the tracer hears of what is transcribed. -/
theorem runOn_recorder (r : Reduction α) (M : ParityMatrix) (c? : Option Circuit)
    (tracer : Tracer) :
    let t := transcribe recordIn (r.exec (.start M)).2.events c?
    r.runOn Recorder.bench ⟨M, c?, tracer⟩ = (t.outcome .algebra (r.exec (.start M)).1,
      ⟨M.addRows (rowAdditions t.events), t.companion, tracer.map (t.events.reverse ++ ·)⟩) := by
  have hb : Recorder.bench.Keeps recordIn .algebra
      fun M c? log => ⟨M, c?, tracer.map (log ++ ·)⟩ := by
    refine ⟨fun _ _ _ => rfl, ?_, ?_, ?_⟩
    · intro M c c' log t s h
      simp only [Recorder.bench, Recorder.addRow, h]
      cases tracer <;> rfl
    · intro M c e log t s h
      simp only [Recorder.bench, Recorder.addRow, h]
      rfl
    · intro M c log m
      cases tracer <;> rfl
  have h := runOn_eq hb r M c? []
  simp only [List.nil_append, List.append_nil, Option.map_id'] at h
  exact h

end Script

/-! ## Recorded reductions -/

/-- The run that the plan for `M` makes when it is recorded in a circuit: the plan itself, unless
the circuit rejects a row addition. -/
def Plan.record (p : Plan α) (M : ParityMatrix) (circuit : Option Circuit) : Run α :=
  let t := transcribe recordIn p.work.events circuit
  match t.rejection with
  | none => ⟨p.work.matrix, t.companion, t.events, p.outcome.mapError .refused⟩
  | some e =>
    ⟨M.addRows (rowAdditions t.events), t.companion, t.events, .error (.refused (.algebra e))⟩

/-- The matrix of a run is what the transcribed row additions make of `M`. -/
theorem Plan.record_eq (p : Plan α) {M : ParityMatrix} (hp : p.work.Explains M)
    (c? : Option Circuit) :
    let t := transcribe recordIn p.work.events c?
    p.record M c? = ⟨M.addRows (rowAdditions t.events), t.companion, t.events,
      (t.outcome .algebra p.outcome).mapError .refused⟩ := by
  unfold Plan.record
  dsimp only
  cases h : (transcribe recordIn p.work.events c?).rejection with
  | none =>
    rw [transcribe_events_eq h, ← hp]
    simp only [Transcript.outcome, h]
  | some e =>
    simp only [Transcript.outcome, h]
    rfl

namespace Tracer

/-- What a tracer has heard, if it listens. -/
theorem events_start (listens : Bool) (events : List Event) :
    Tracer.events ((Tracer.start listens).map (events.reverse ++ ·)) =
      if listens then events else [] := by
  cases listens <;> simp [start, Tracer.events]

end Tracer

namespace Run

/-- What is left of a run when somebody listens, or when nobody does. -/
def heard (listens : Bool) (r : Run α) : Run α :=
  { r with events := if listens then r.events else [] }

/-- A listener hears everything. -/
@[simp] theorem heard_true (r : Run α) : r.heard true = r := rfl

/-- What becomes of the result is the same for every listener. -/
theorem map_heard {β : Type} (f : α → β) (listens : Bool) (r : Run α) :
    (r.heard listens).map f = (r.map f).heard listens := rfl

/-- What becomes of the circuit has nothing to do with the events. -/
theorem mapCircuit_heard (f : α → Circuit → Except (Fault SynthesisError) Circuit) (listens : Bool)
    (r : Run α) : (r.heard listens).mapCircuit f = (r.mapCircuit f).heard listens := by
  obtain ⟨matrix, circuit, events, outcome⟩ := r
  cases outcome with
  | error e => rfl
  | ok a =>
    cases circuit with
    | none => rfl
    | some c =>
      simp only [mapCircuit, heard]
      cases f a c <;> rfl

end Run

/-- **A reduction may be planned alone and recorded afterwards**, and a listener makes no difference
but for what it hears. -/
theorem Reduction.record_eq (r : Reduction α) (listens : Bool) (M : ParityMatrix)
    (c? : Option Circuit) :
    r.record listens M c? = ((r.plan M).record M c?).heard listens := by
  have hplan : (r.plan M).work.Explains M := (r.steps_exec (.start M)).explains
  unfold record
  rw [Script.runOn_recorder, Plan.record_eq _ hplan]
  dsimp only [plan, Run.heard]
  rw [Tracer.events_start]

/-! ## Recording in a circuit -/

/-- **What is recorded in a circuit**: the accepted row additions stand in front of the gates, and
the first one that is left out was rejected. -/
structure Transcript.Records (t : Transcript (Option Circuit) AlgebraError) (events : List Event)
    (c? : Option Circuit) : Prop where
  companion : t.companion = c?.map (·.prepend (rowAdditions t.events))
  proper : ∀ c ∈ c?, ∀ op ∈ rowAdditions t.events, op.IsProper c.qubits
  rejected : ∀ e, t.rejection = some e → ∃ c ∈ c?, ∃ op rest,
    rowAdditions events = rowAdditions t.events ++ op :: rest ∧
      (c.prepend (rowAdditions t.events)).recordRow op.target op.source = .error e

/-- One more row addition, which the circuit accepts, before those recorded. -/
theorem Transcript.Records.row {transcript : Transcript (Option Circuit) AlgebraError}
    {events : List Event} {c : Circuit} {t s : ℕ}
    (hproper : (⟨t, s⟩ : RowAddition).IsProper c.qubits)
    (h : transcript.Records events (some (c.prepend [⟨t, s⟩]))) :
    ({ transcript with events := .row t s :: transcript.events } : Transcript _ _).Records
      (.row t s :: events) (some c) := by
  have hprepend : ∀ ops, (c.prepend [⟨t, s⟩]).prepend ops = c.prepend (⟨t, s⟩ :: ops) :=
    fun ops => (c.prepend_append [⟨t, s⟩] ops).symm
  refine ⟨h.companion.trans (congrArg some (hprepend _)), ?_, ?_⟩
  · rintro _ ⟨⟩ op hop
    rcases List.mem_cons.mp hop with rfl | hop
    · exact hproper
    · exact h.proper _ rfl op hop
  · intro e he
    obtain ⟨_, ⟨⟩, op, rest, hsplit, herror⟩ := h.rejected e he
    refine ⟨c, rfl, op, rest, congrArg _ hsplit, ?_⟩
    rw [hprepend] at herror
    exact herror

/-- **Recording in a circuit**, row addition by row addition. -/
theorem transcribe_recordIn (events : List Event) (c? : Option Circuit) :
    (transcribe recordIn events c?).Records events c? := by
  induction events generalizing c? with
  | nil => exact ⟨by cases c? <;> rfl, by simp [transcribe], by simp [transcribe]⟩
  | cons event events ih =>
    cases event with
    | row t s =>
      cases c? with
      | none =>
        refine ⟨(ih none).companion, by simp, ?_⟩
        intro e he
        obtain ⟨c, hc, _⟩ := (ih none).rejected e he
        cases hc
      | some c =>
        cases hrecord : c.recordRow t s with
        | error e =>
          have hin : recordIn (some c) t s = .error e := by simp [recordIn, hrecord, Except.map]
          rw [transcribe_row_of_error hin]
          refine ⟨rfl, by simp, ?_⟩
          rintro _ ⟨⟩
          exact ⟨c, rfl, ⟨t, s⟩, rowAdditions events, rfl, hrecord⟩
        | ok d =>
          have hproper := Circuit.isProper_of_recordRow hrecord
          obtain rfl : d = c.prepend [⟨t, s⟩] :=
            Except.ok.inj (hrecord.symm.trans (c.recordRow_of_isProper hproper))
          have hin : recordIn (some c) t s = .ok (some (c.prepend [⟨t, s⟩])) := by
            simp [recordIn, hrecord, Except.map]
          rw [transcribe_row_of_ok hin]
          exact (ih _).row hproper
    -- other events pass by the circuit
    | _ => exact ⟨(ih c?).companion, (ih c?).proper, (ih c?).rejected⟩

/-- Row additions that are proper for the circuit are all recorded. -/
theorem transcribe_recordIn_of_isProper {events : List Event} {c? : Option Circuit}
    (h : ∀ c ∈ c?, ∀ op ∈ rowAdditions events, op.IsProper c.qubits) :
    (transcribe recordIn events c?).rejection = none := by
  cases hreject : (transcribe recordIn events c?).rejection with
  | none => rfl
  | some e =>
    obtain ⟨c, hc, op, rest, hsplit, herror⟩ := (transcribe_recordIn events c?).rejected e hreject
    have hproper := h c hc op (by rw [hsplit]; simp)
    have hrecord := Circuit.recordRow_of_isProper
      (c.prepend (rowAdditions (transcribe recordIn events c?).events)) hproper
    rw [hrecord] at herror
    cases herror

/-- A plan whose row additions are all accepted is recorded as it is. -/
theorem Plan.record_of_accepted (p : Plan α) (M : ParityMatrix) {c? : Option Circuit}
    (h : (transcribe recordIn p.work.events c?).rejection = none) :
    p.record M c? = ⟨p.work.matrix, c?.map (·.prepend (rowAdditions p.work.events)),
      p.work.events, p.outcome.mapError .refused⟩ := by
  have hcompanion := (transcribe_recordIn p.work.events c?).companion
  have hevents := transcribe_events_eq h
  rw [hevents] at hcompanion
  simp only [Plan.record, h, hevents, hcompanion]

/-- A circuit with enough wires takes all row additions between rows of the matrix. -/
theorem Plan.record_of_isProper (p : Plan α) {M : ParityMatrix} {c? : Option Circuit}
    (h : ∀ op ∈ rowAdditions p.work.events, op.IsProper M.rows)
    (hc : ∀ c ∈ c?, M.rows ≤ c.qubits) :
    p.record M c? = ⟨p.work.matrix, c?.map (·.prepend (rowAdditions p.work.events)),
      p.work.events, p.outcome.mapError .refused⟩ := by
  refine p.record_of_accepted M (transcribe_recordIn_of_isProper ?_)
  intro c hmem op hop
  obtain ⟨ht, hs, hne⟩ := h op hop
  exact ⟨lt_of_lt_of_le ht (hc c hmem), lt_of_lt_of_le hs (hc c hmem), hne⟩

/-- A plan with a row addition that is rejected is recorded up to that one. -/
theorem Plan.record_of_rejected (p : Plan α) (M : ParityMatrix) {c? : Option Circuit}
    {e : AlgebraError} (h : (transcribe recordIn p.work.events c?).rejection = some e) :
    p.record M c? = ⟨M.addRows (rowAdditions (transcribe recordIn p.work.events c?).events),
      c?.map (·.prepend (rowAdditions (transcribe recordIn p.work.events c?).events)),
      (transcribe recordIn p.work.events c?).events, .error (.refused (.algebra e))⟩ := by
  have hcompanion := (transcribe_recordIn p.work.events c?).companion
  simp only [Plan.record, h, ← hcompanion]

/-- A recorded plan that succeeded is the plan. -/
theorem Plan.eq_of_record_ok {p : Plan α} {M : ParityMatrix} {c? : Option Circuit} {a : α}
    (h : (p.record M c?).outcome = .ok a) :
    p.outcome = .ok a ∧ (p.record M c?).matrix = p.work.matrix ∧
      (p.record M c?).events = p.work.events := by
  cases hrejection : (transcribe recordIn p.work.events c?).rejection with
  | some e =>
    rw [p.record_of_rejected M hrejection] at h
    cases h
  | none =>
    rw [p.record_of_accepted M hrejection] at h ⊢
    refine ⟨?_, rfl, rfl⟩
    cases houtcome : p.outcome with
    | error e =>
      rw [houtcome] at h
      cases h
    | ok b =>
      rw [houtcome] at h
      cases h
      rfl

end CnotSynthesis
