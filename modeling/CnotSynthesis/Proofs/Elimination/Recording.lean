import CnotSynthesis.Method
import CnotSynthesis.Proofs.Elimination.Coupled
import CnotSynthesis.Proofs.Elimination.Gauss

/-! # Matrix, circuit and events of an elimination agree

* **`Method.gaussRun_eq`** — Gaussian elimination beside a circuit and a tracer, beside one of them
  or beside neither, is a recorded plan like the others.
* **`Method.reduceWith_eq`** — a listener makes no difference to any method but for what it hears.
* **`Run.Transcribes`** — one list of row additions says what became of the matrix, of the circuit
  and of the events of a run; **`Method.reduce_transcribes`** — it does so for every elimination.
* **`Run.LockStep`**, **`Method.elimination_lockstep`** — so the matrix of the circuit times the
  reduced matrix never changes, and neither a listener nor a circuit that accepts the row additions
  has an influence on them. -/

namespace CnotSynthesis

variable {α β : Type}

/-! ## Runs that transcribe -/

/-- **A run in lock-step**: with the row additions `ops` of its events, the matrix is `M` after
`ops`, the gates are those of `ops` in front of the old ones, and `ops` are all those of `events`,
unless the circuit rejected the next one. -/
structure Run.Transcribes (r : Run α) (M : ParityMatrix) (events : List Event)
    (c? : Option Circuit) : Prop where
  matrix : r.matrix = M.addRows (rowAdditions r.events)
  circuit : (r.circuit.map fun d => (d.qubits, d.gates)) =
    c?.map fun c => (c.qubits, (c.prepend (rowAdditions r.events)).gates)
  proper : ∀ c ∈ c?, ∀ op ∈ rowAdditions r.events, op.IsProper c.qubits
  /-- The layout is the old one or a checked new one. -/
  layout : ∀ d ∈ r.circuit, (∃ c ∈ c?, d.layout = c.layout) ∨
    ∃ l, d.layout = some l ∧ IsPermutation l.rowPerm d.qubits ∧ IsPermutation l.colPerm d.qubits
  complete : rowAdditions r.events = rowAdditions events ∨ ∃ c ∈ c?, ∃ op rest e,
    rowAdditions events = rowAdditions r.events ++ op :: rest ∧
    (c.prepend (rowAdditions r.events)).recordRow op.target op.source = .error e ∧
    r.outcome = .error (.refused (.algebra e))

/-- The gates that row additions put in front keep the wires and the layout. -/
theorem map_prepend_eq (c? : Option Circuit) (ops : List RowAddition) :
    ((c?.map (·.prepend ops)).map fun d => (d.qubits, d.gates)) =
        (c?.map fun c => (c.qubits, (c.prepend ops).gates)) ∧
      ∀ d ∈ c?.map (·.prepend ops), ∃ c ∈ c?, d.layout = c.layout := by
  cases c? with
  | none => exact ⟨rfl, by simp⟩
  | some c =>
    refine ⟨rfl, ?_⟩
    rintro _ ⟨⟩
    exact ⟨c, rfl, rfl⟩

/-- A plan recorded in a circuit. -/
theorem Plan.transcribes_record (p : Plan α) {M : ParityMatrix}
    (hp : p.work.Explains M) (c? : Option Circuit) :
    (p.record M c?).Transcribes M p.work.events c? := by
  obtain ⟨-, hproper, hreject⟩ := transcribe_recordIn p.work.events c?
  cases hrejection : (transcribe recordIn p.work.events c?).rejection with
  | none =>
    rw [transcribe_events_eq hrejection] at hproper
    rw [p.record_of_accepted M hrejection]
    obtain ⟨hgates, hlayout⟩ := map_prepend_eq c? (rowAdditions p.work.events)
    exact ⟨hp, hgates, hproper, fun d hd => .inl (hlayout d hd), .inl rfl⟩
  | some e =>
    rw [p.record_of_rejected M hrejection]
    obtain ⟨hgates, hlayout⟩ :=
      map_prepend_eq c? (rowAdditions (transcribe recordIn p.work.events c?).events)
    obtain ⟨c, hc, op, rest, hsplit, herror⟩ := hreject e hrejection
    exact ⟨rfl, hgates, hproper, fun d hd => .inl (hlayout d hd),
      .inr ⟨c, hc, op, rest, e, hsplit, herror, rfl⟩⟩

namespace Run.Transcribes

variable {M : ParityMatrix} {events : List Event} {c? : Option Circuit}

/-- What becomes of the result is not seen in the transcript. -/
theorem map {r : Run α} (h : r.Transcribes M events c?) (f : α → β) :
    (r.map f).Transcribes M events c? := by
  refine ⟨h.matrix, h.circuit, h.proper, h.layout, ?_⟩
  rcases h.complete with hall | ⟨c, hc, op, rest, e, hsplit, herror, houtcome⟩
  · exact .inl hall
  · refine .inr ⟨c, hc, op, rest, e, hsplit, herror, ?_⟩
    change r.outcome.map f = _
    rw [houtcome]
    rfl

/-- Attaching a layout changes nothing else. -/
theorem mapCircuit {r : Run α} (h : r.Transcribes M events c?)
    {f : α → Circuit → Except (Fault SynthesisError) Circuit}
    (hf : ∀ a d d', f a d = .ok d' → d'.qubits = d.qubits ∧ d'.gates = d.gates ∧
      ∃ l, d'.layout = some l ∧ IsPermutation l.rowPerm d'.qubits ∧
        IsPermutation l.colPerm d'.qubits) : (r.mapCircuit f).Transcribes M events c? := by
  obtain ⟨matrix, circuit, events', outcome⟩ := r
  cases outcome with
  | error e => exact h
  | ok a =>
    cases circuit with
    | none => exact h
    | some d =>
      have hall : rowAdditions events' = rowAdditions events := by
        rcases h.complete with hall | ⟨_, _, _, _, _, _, _, houtcome⟩
        · exact hall
        · cases houtcome
      cases hfd : f a d with
      | error e =>
        have heq : Run.mapCircuit f ⟨matrix, some d, events', .ok a⟩ =
            ⟨matrix, some d, events', .error e⟩ := by simp only [Run.mapCircuit, hfd]
        rw [heq]
        exact ⟨h.matrix, h.circuit, h.proper, h.layout, .inl hall⟩
      | ok d' =>
        obtain ⟨hqubits, hgates, hlayout⟩ := hf a d d' hfd
        have heq : Run.mapCircuit f ⟨matrix, some d, events', .ok a⟩ =
            ⟨matrix, some d', events', .ok a⟩ := by simp only [Run.mapCircuit, hfd]
        rw [heq]
        refine ⟨h.matrix, ?_, h.proper, ?_, .inl hall⟩
        · rw [← h.circuit]
          change some (d'.qubits, d'.gates) = some (d.qubits, d.gates)
          rw [hqubits, hgates]
        · rintro _ ⟨⟩
          exact .inr hlayout

/-- A circuit that stays in lock-step stays well formed, and its matrix times the reduced matrix
stays what it was. -/
theorem parity_mul {r : Run α} (h : r.Transcribes M events c?) {c d : Circuit} (hc : c ∈ c?)
    (hd : d ∈ r.circuit) (hwell : c.WellFormed) (hM : c.qubits = M.rows) :
    d.WellFormed ∧ d.qubits = M.rows ∧ d.parity.mul r.matrix = c.parity.mul M := by
  have hproper := h.proper c hc
  have hcircuit := h.circuit
  rw [Option.mem_def.mp hc, Option.mem_def.mp hd] at hcircuit
  obtain ⟨hqubits, hgates⟩ := Prod.ext_iff.mp (Option.some.inj hcircuit)
  dsimp only at hqubits hgates
  refine ⟨⟨?_, ?_⟩, hqubits.trans hM, ?_⟩
  · rw [hqubits, hgates]
    exact (hwell.prepend hproper).gates
  · intro l hl
    rcases h.layout d hd with ⟨c', hc', hsame⟩ | ⟨l', hl', hperm⟩
    · cases Option.mem_unique hc hc'
      rw [hqubits]
      exact hwell.layout l (hsame ▸ hl)
    · cases Option.some.inj (hl'.symm.trans hl)
      exact hperm
  · have hparity : d.parity = (c.prepend (rowAdditions r.events)).parity := by
      rw [Circuit.parity_eq_addRows, Circuit.parity_eq_addRows, hqubits, hgates]
      rfl
    rw [hparity, h.matrix]
    exact c.parity_prepend_mul hM.symm fun op hop => (hproper op hop).2.2

end Run.Transcribes

/-! ## Gaussian elimination -/

/-- Gaussian elimination of `M` alone. -/
def gaussPlan (full : Bool) (M : ParityMatrix) : Plan ℕ := ⟨(gauss full M).1, .ok (gauss full M).2⟩

/-- The plan of Gaussian elimination makes proper row additions. -/
theorem steps_gaussPlan (full : Bool) (M : ParityMatrix) :
    Work.Steps (ProperRows M.rows) (Work.start M) (gaussPlan full M).work := gauss_steps full M

/-- A circuit and a tracer take note of row additions: what the circuit makes of them, and what it
has accepted, is told to the tracer. -/
theorem transcribe_traced {events : List Event} (h : ∀ e ∈ events, ∃ t s, e = .row t s)
    (c? : Option Circuit) (tracer : Tracer) :
    let t := transcribe recordIn events c?
    transcribe Method.Traced.recordRow events ⟨c?, tracer⟩ =
      ⟨⟨t.companion, tracer.map (t.events.reverse ++ ·)⟩, t.events, t.rejection⟩ := by
  induction events generalizing c? tracer with
  | nil => cases tracer <;> rfl
  | cons event rest ih =>
    obtain ⟨t, s, rfl⟩ := h event List.mem_cons_self
    cases hr : recordIn c? t s with
    | error e =>
      have htraced : Method.Traced.recordRow ⟨c?, tracer⟩ t s = .error e := by
        simp only [Method.Traced.recordRow, hr]
        rfl
      rw [transcribe_row_of_error hr, transcribe_row_of_error htraced]
      cases tracer <;> rfl
    | ok d? =>
      have htraced : Method.Traced.recordRow ⟨c?, tracer⟩ t s =
          .ok ⟨d?, tracer.emit (.row t s)⟩ := by
        simp only [Method.Traced.recordRow, hr]
        rfl
      rw [transcribe_row_of_ok hr, transcribe_row_of_ok htraced,
        ih (fun e he => h e (List.mem_cons_of_mem _ he))]
      cases tracer <;> simp [Tracer.emit]

/-- **Gaussian elimination is a recorded plan**, whoever takes note of it. -/
theorem Method.gaussRun_eq (full listens : Bool) (M : ParityMatrix) (c? : Option Circuit) :
    gaussRun full listens M c? = ((gaussPlan full M).record M c?).heard listens := by
  have hplan : (gaussPlan full M).work.Explains M := (steps_gaussPlan full M).explains
  unfold gaussRun
  split
  · next halone =>
    -- nobody takes note, so nothing is rejected
    obtain ⟨hnone, hlistens⟩ := Bool.and_eq_true_iff.mp halone
    obtain rfl : c? = none := Option.isNone_iff_eq_none.mp hnone
    obtain rfl : listens = false := by simpa using hlistens
    have hunit : transcribe (fun (c : Unit) _ _ => (.ok c : Except AlgebraError Unit))
        (CnotSynthesis.gauss full M).1.events () =
          ⟨(), (CnotSynthesis.gauss full M).1.events, none⟩ :=
      transcribe_eq_foldl (f := fun c _ _ => c) (P := fun _ => True) trivial
        fun _ _ _ _ => ⟨rfl, trivial⟩
    rw [gaussWith_eq, hunit,
      Plan.record_of_accepted _ _ (transcribe_recordIn_of_isProper (by simp)), hplan]
    rfl
  · rw [gaussWith_eq, transcribe_traced (plain_gauss full M), Plan.record_eq _ hplan]
    dsimp only [gaussPlan, Run.heard]
    rw [Tracer.events_start]
    unfold Transcript.outcome
    cases (transcribe recordIn (CnotSynthesis.gauss full M).1.events c?).rejection <;> rfl

/-! ## Eliminations -/

namespace Method

/-- An elimination, as opposed to a placement search around one. -/
def IsElimination : Method → Prop
  | .gauss _ | .steiner _ _ | .rowCol | .permRowCol .. => True
  | .genetic .. | .swarm .. => False

/-- Elimination along Steiner trees stays on routes. -/
theorem steps_steinerReduction (full : Bool) (order : PivotOrder) (G? : Option CouplingGraph)
    (w : Work) :
    Work.Steps (Routed G? w.matrix.rows) w ((steinerReduction full order G?).exec w).2 := by
  refine Reduction.steps_exec_bind (Work.Steps.refl w) ?_
  intro M w' h
  rw [Reduction.exec_matrix] at h
  obtain ⟨⟨⟩, rfl⟩ := Prod.ext_iff.mp h
  exact Reduction.steps_graphFor_bind fun G _ => Reduction.proceeds_steiner order full w

/-- On the graph that is there. -/
theorem plan_steinerReduction_of_graphFor {G : CouplingGraph} {G? : Option CouplingGraph}
    {M : ParityMatrix} (full : Bool) (order : PivotOrder) (hG : graphFor G? M.rows = .ok G) :
    (steinerReduction full order G?).plan M = (Reduction.steiner order full G).plan M := by
  have hexec : (steinerReduction full order G?).exec (Work.start M) =
      (Reduction.steiner order full G).exec (Work.start M) := by
    unfold steinerReduction
    rw [Script.exec_bind, Reduction.exec_matrix]
    change ((liftM (graphFor G? M.rows) : Reduction CouplingGraph) >>= _).exec _ = _
    rw [hG]
    rfl
  rw [Reduction.plan_eq, Reduction.plan_eq, hexec]

/-- With a graph of the right size, the plan is that of the elimination on it. -/
theorem plan_steinerReduction {G : CouplingGraph} {M : ParityMatrix} (full : Bool)
    (order : PivotOrder) (hsize : G.size = M.rows) :
    (steinerReduction full order (some G)).plan M = (Reduction.steiner order full G).plan M :=
  plan_steinerReduction_of_graphFor full order (if_pos hsize)

/-- What `attachOutput` does when it does something. -/
theorem attachOutput_ok {output : List ℕ} {c d : Circuit} (h : attachOutput output c = .ok d) :
    d = { c with layout := some ⟨List.range output.length, Permutation.inverse output⟩ } ∧
      IsPermutation (List.range output.length) c.qubits ∧
      IsPermutation (Permutation.inverse output) c.qubits := by
  unfold attachOutput at h
  cases hset : c.setLayout ⟨List.range output.length, Permutation.inverse output⟩ with
  | error e =>
    rw [hset] at h
    cases h
  | ok placed =>
    rw [hset] at h
    cases h
    obtain ⟨⟨hrow, hcol⟩, hplaced⟩ := Circuit.setLayout_eq_ok_iff.mp hset
    exact ⟨hplaced, hrow, hcol⟩

/-! ### Whole eliminations -/

section Equations

variable (G? : Option CouplingGraph) (M : ParityMatrix) (c? : Option Circuit)

/-- Gaussian elimination is its recorded plan. -/
theorem reduce_gauss (full : Bool) :
    (Method.gauss full).reduce G? M c? = (gaussPlan full M).record M c? :=
  gaussRun_eq full true M c?

/-- Elimination along Steiner trees is its recorded plan. -/
theorem reduce_steiner (full : Bool) (order : PivotOrder) :
    (Method.steiner full order).reduce G? M c? =
      ((steinerReduction full order G?).plan M).record M c? := Reduction.record_eq _ true M c?

/-- Tied vertex elimination is its recorded plan. -/
theorem reduce_rowCol :
    Method.rowCol.reduce G? M c? = ((Reduction.rowCol G?).plan M).record M c? :=
  Reduction.record_eq _ true M c?

/-- Free vertex elimination, before a layout is attached, is its recorded plan. -/
theorem permute_eq_record (row : RowStrategy) (column : ColumnStrategy)
    (search : Option BestFirst) : permute row column search G? M c? =
      ((Reduction.permRowCol (freePair row column) search G?).plan M).record M c? :=
  Reduction.record_eq _ true M c?

/-- Free vertex elimination attaches the layout of its output and gives its length. -/
theorem reduce_permRowCol (row : RowStrategy) (column : ColumnStrategy)
    (search : Option BestFirst) : (Method.permRowCol row column search).reduce G? M c? =
      ((permute row column search G? M c?).mapCircuit attachOutput).map List.length := rfl

variable {G? M} {base : Method} {s : SearchSettings}

/-- A genetic search that breaks leaves the matrix and the circuit alone. -/
theorem reduce_genetic_of_error {breach : Breach}
    (h : geneticPlacement base.reduce s G? M = .error breach) :
    (Method.genetic base s).reduce G? M c? = ⟨M, c?, [], .error (.broken breach)⟩ := by
  unfold reduce at h ⊢
  rw [reduceWith, h]

/-- One that settles on a placement has the relabelled matrix reduced. -/
theorem reduce_genetic_of_ok {events : List Event} {placement : List ℕ}
    (h : geneticPlacement base.reduce s G? M = .ok (events, placement)) :
    (Method.genetic base s).reduce G? M c? =
      reduceRelabelled base.reduce G? M c? placement placement events := by
  unfold reduce at h ⊢
  rw [reduceWith, h]
  rfl

/-- A swarm search that fails leaves the matrix and the circuit alone. -/
theorem reduce_swarm_of_error {e : Fault SynthesisError} {events : List Event}
    (h : swarmPlacement base.reduce s G? M = (.error e, events)) :
    (Method.swarm base s).reduce G? M c? = ⟨M, c?, events, .error e⟩ := by
  unfold reduce at h ⊢
  rw [reduceWith, h]
  rfl

/-- One that settles on placements has the relabelled matrix reduced; a placement that is missing is
the identity. -/
theorem reduce_swarm_of_ok {solution : Chain.Solution} {events : List Event}
    (h : swarmPlacement base.reduce s G? M = (.ok solution, events)) :
    (Method.swarm base s).reduce G? M c? = reduceRelabelled base.reduce G? M c?
      (solution.placements[1]?.getD (List.range M.rows))
      (solution.placements[0]?.getD (List.range M.rows)) events := by
  unfold reduce at h ⊢
  rw [reduceWith, h]
  rfl

end Equations

/-- The events of a placement search do not reach its circuit. -/
theorem reduceRelabelled_heard (reduce : Reducer) (G? : Option CouplingGraph) (M : ParityMatrix)
    (c? : Option Circuit) (rows cols : List ℕ) (listens : Bool) (events : List Event) :
    reduceRelabelled reduce G? M c? rows cols (if listens then events else []) =
      (reduceRelabelled reduce G? M c? rows cols events).heard listens := by
  unfold reduceRelabelled
  cases M.relabel? rows cols with
  | error e => rfl
  | ok N =>
    exact Run.mapCircuit_heard (fun _ => attachPlacement rows cols) listens
      { reduce G? N c? with events := events }

/-- **A listener makes no difference** to any method but for what it hears. -/
theorem reduceWith_eq (m : Method) (listens : Bool) (G? : Option CouplingGraph) (M : ParityMatrix)
    (c? : Option Circuit) :
    m.reduceWith listens G? M c? = (m.reduce G? M c?).heard listens := by
  cases m with
  | gauss full =>
    rw [reduce_gauss]
    exact gaussRun_eq full listens M c?
  | steiner full order =>
    rw [reduce_steiner]
    exact Reduction.record_eq _ listens M c?
  | rowCol =>
    rw [reduce_rowCol]
    exact Reduction.record_eq _ listens M c?
  | permRowCol row column search =>
    have hrecord := Reduction.record_eq (Reduction.permRowCol (freePair row column) search G?)
      listens M c?
    rw [reduce_permRowCol, permute_eq_record]
    unfold reduceWith permuteWith
    rw [hrecord, Run.mapCircuit_heard, Run.map_heard]
  | genetic base settings =>
    unfold reduce reduceWith
    cases geneticPlacement (base.reduceWith true) settings G? M with
    | error breach => cases listens <;> rfl
    | ok found => exact reduceRelabelled_heard _ G? M c? found.2 found.2 listens found.1
  | swarm base settings =>
    unfold reduce reduceWith
    rcases swarmPlacement (base.reduceWith true) settings G? M with ⟨_ | solution, events⟩
    · rfl
    · exact reduceRelabelled_heard _ G? M c? _ _ listens events

/-- **Every elimination stays in lock-step**, with one list of planned events for all circuits. -/
theorem reduce_transcribes {m : Method} (hm : m.IsElimination) (G? : Option CouplingGraph)
    (M : ParityMatrix) :
    ∃ events, ∀ c?, (m.reduce G? M c?).Transcribes M events c? := by
  cases m with
  | gauss full =>
    refine ⟨(gaussPlan full M).work.events, fun c? => ?_⟩
    rw [reduce_gauss]
    exact (gaussPlan full M).transcribes_record (steps_gaussPlan full M).explains c?
  | steiner full order =>
    refine ⟨((steinerReduction full order G?).plan M).work.events, fun c? => ?_⟩
    rw [reduce_steiner]
    exact Plan.transcribes_record _ (Script.steps_exec _ (Work.start M)).explains c?
  | rowCol =>
    refine ⟨((Reduction.rowCol G?).plan M).work.events, fun c? => ?_⟩
    rw [reduce_rowCol]
    exact Plan.transcribes_record _ (Script.steps_exec _ (Work.start M)).explains c?
  | permRowCol row column search =>
    refine ⟨((Reduction.permRowCol (freePair row column) search G?).plan M).work.events,
      fun c? => ?_⟩
    rw [reduce_permRowCol, permute_eq_record]
    have hplan := Plan.transcribes_record
      ((Reduction.permRowCol (freePair row column) search G?).plan M)
      (Script.steps_exec _ (Work.start M)).explains c?
    refine (hplan.mapCircuit ?_).map List.length
    intro output c d h
    obtain ⟨rfl, hrow, hcol⟩ := attachOutput_ok h
    exact ⟨rfl, rfl, _, rfl, hrow, hcol⟩
  | genetic => exact hm.elim
  | swarm => exact hm.elim

end Method

/-- **A run in lock-step with row additions**: `ops` turns `M` into the matrix of the run; its
gates, latest first, stand in front of the old gates; and a listener hears of `ops`. So the matrix
of the circuit times the reduced matrix is what it was. -/
structure Run.LockStep (r : Run α) (listens : Bool) (M : ParityMatrix) (c? : Option Circuit)
    (ops : List RowAddition) : Prop where
  matrix : r.matrix = M.addRows ops
  events : rowAdditions r.events = if listens then ops else []
  gates : (r.circuit.map fun d => (d.qubits, d.gates)) =
    c?.map fun c => (c.qubits, (ops.map RowAddition.gate).reverse ++ c.gates)
  parity : ∀ c ∈ c?, ∀ d ∈ r.circuit, c.WellFormed → c.qubits = M.rows →
    d.WellFormed ∧ d.parity.mul r.matrix = c.parity.mul M ∧
      (ParityMatrix.requireShape M.rows M.rows = .ok () →
        c.parityMap = .ok c.parity ∧ d.parityMap = .ok d.parity)

/-- A transcript is in lock-step, whoever listens. -/
theorem Run.Transcribes.lockStep {r : Run α} {M : ParityMatrix} {events : List Event}
    {c? : Option Circuit} (h : r.Transcribes M events c?) (listens : Bool) :
    (r.heard listens).LockStep listens M c? (rowAdditions r.events) where
  matrix := h.matrix
  events := by cases listens <;> rfl
  gates := h.circuit
  parity := by
    intro c hc d hd hwell hM
    obtain ⟨hwell', hM', hmul⟩ := h.parity_mul hc hd hwell hM
    refine ⟨hwell', hmul, fun hroom => ⟨?_, ?_⟩⟩
    · rw [hwell.parityMap_eq, hM, hroom]
      rfl
    · rw [hwell'.parityMap_eq, hM', hroom]
      rfl

namespace Method

/-- **Matrix, circuit and events of an elimination are in lock-step**, whatever the matrix, the
graph, the circuit and the outcome, and whether somebody listens or not: one list `ops` of row
additions says what became of all three. A listener changes nothing but the events. The list is the
one that the elimination makes without a circuit, unless the circuit rejects its next row addition,
and then the elimination ends with that rejection. -/
theorem elimination_lockstep {m : Method} (hm : m.IsElimination) (G? : Option CouplingGraph)
    (M : ParityMatrix) (c? : Option Circuit) :
    ∃ ops : List RowAddition,
      (∀ listens, (m.reduceWith listens G? M c?).LockStep listens M c? ops) ∧
      m.reduceWith false G? M c? = { m.reduceWith true G? M c? with events := [] } ∧
      (rowAdditions (m.reduceWith true G? M none).events = ops ∨
        ∃ c ∈ c?, ∃ op rest e,
          rowAdditions (m.reduceWith true G? M none).events = ops ++ op :: rest ∧
          (c.prepend ops).recordRow op.target op.source = .error e ∧
          ∀ listens, (m.reduceWith listens G? M c?).outcome = .error (.refused (.algebra e))) := by
  obtain ⟨events, h⟩ := reduce_transcribes hm G? M
  have hnone : rowAdditions (m.reduceWith true G? M none).events = rowAdditions events := by
    rcases (h none).complete with hall | ⟨c, ⟨⟩, _⟩
    exact hall
  refine ⟨rowAdditions (m.reduce G? M c?).events, ?_, m.reduceWith_eq false G? M c?, ?_⟩
  · intro listens
    rw [reduceWith_eq]
    exact (h c?).lockStep listens
  · rw [hnone]
    rcases (h c?).complete with hall | ⟨c, hc, op, rest, e, hsplit, herror, houtcome⟩
    · exact .inl hall.symm
    · refine .inr ⟨c, hc, op, rest, e, hsplit, herror, fun listens => ?_⟩
      rw [reduceWith_eq]
      exact houtcome

/-- Three rows of a singular matrix, and a circuit that already has a gate. -/
theorem elimination_lockstep_singular :
    let M := ParityMatrix.ofFn 3 3 fun r c => c == r || c == (r + 1) % 3
    let c : Circuit := ⟨3, [⟨0, 1⟩], none⟩
    let run listens := (Method.gauss true).reduceWith listens none M (some c)
    (Method.gauss true).IsElimination ∧ c.WellFormed ∧ c.qubits = M.rows ∧
      ∃ ops, (∀ listens, (run listens).matrix = M.addRows ops) ∧ ops ≠ [] ∧
        rowAdditions (run true).events = ops ∧ rowAdditions (run false).events = [] ∧
        ∀ listens, ∀ d ∈ (run listens).circuit,
          d.parity.mul (run listens).matrix = c.parity.mul M := by
  intro M c run
  have hc : c.WellFormed := ⟨by simp [c, Circuit.IsGate], by simp [c]⟩
  refine ⟨trivial, hc, rfl, ?_⟩
  obtain ⟨ops, hlockstep, _⟩ := elimination_lockstep (m := .gauss true) trivial none M (some c)
  have hevents : rowAdditions (run true).events = ops := (hlockstep true).events
  refine ⟨ops, fun listens => (hlockstep listens).matrix, ?_, hevents, (hlockstep false).events,
    fun listens d hd => ((hlockstep listens).parity c rfl d hd hc rfl).2.1⟩
  rw [← hevents]
  decide

end Method

end CnotSynthesis
