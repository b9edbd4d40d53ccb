import CnotSynthesis.Proofs.Nesting
import CnotSynthesis.Proofs.Placement.ReducedChains

/-! # Layouts that a circuit brings along

The circuit that a method records in may carry a layout already. Free vertex elimination puts its
own in the place of it; the other eliminations leave it alone. A placement search cannot tell the
two apart: it composes its placements with the layout that it finds afterwards, also if the
elimination inside never attached one.

* **`Method.Searches m base`** — `m` searches placements for `base`; **`Searches.reduce_cases`** —
  the placements do not depend on the circuit.
* **`Run.DiffersIn r r' l l'`** — two runs that differ in the layouts `l` and `l'` only.
* **`Method.reduce_differsIn`** — what becomes of two layouts that circuits bring along.
* **`Method.reduce_circuit_eq_iff`** — when they make no difference. -/

namespace CnotSynthesis

open ParityMatrix

/-! ## Composed layouts -/

/-- Composing with a list without repetitions loses nothing. -/
theorem Permutation.compose_inj {outer xs ys : List ℕ} (houter : outer.Nodup)
    (hxs : ∀ i ∈ xs, i < outer.length) (hys : ∀ i ∈ ys, i < outer.length)
    (h : compose outer xs = compose outer ys) : xs = ys := by
  have hlength : xs.length = ys.length := by simpa [compose] using congrArg List.length h
  refine List.ext_getElem hlength fun i hi hi' => ?_
  have hx := hxs xs[i] (List.getElem_mem hi)
  have hy := hys ys[i] (List.getElem_mem hi')
  have hget := congrArg (fun l => l.getD i 0) h
  rw [getD_compose outer hi, getD_compose outer hi', List.getD_eq_getElem _ _ hi,
    List.getD_eq_getElem _ _ hi', List.getD_eq_getElem _ _ hx, List.getD_eq_getElem _ _ hy] at hget
  exact houter.getElem_inj_iff.mp hget

/-- The labels of a layout are positions of two placements. -/
def Layout.Below (l : Layout) (rows cols : List ℕ) : Prop :=
  (∀ i ∈ l.rowPerm, i < rows.length) ∧ ∀ i ∈ l.colPerm, i < cols.length

/-- Composing with placements loses nothing of a layout. -/
theorem Layout.after_inj {l l' : Layout} {rows cols : List ℕ} (hrows : rows.Nodup)
    (hcols : cols.Nodup) (hl : l.Below rows cols) (hl' : l'.Below rows cols) :
    l.after rows cols = l'.after rows cols ↔ l = l' := by
  refine ⟨fun h => ?_, fun h => h ▸ rfl⟩
  obtain ⟨hrow, hcol⟩ := Layout.mk.injEq .. ▸ h
  exact congrArg₂ Layout.mk (Permutation.compose_inj hrows hl.1 hl'.1 hrow)
    (Permutation.compose_inj hcols hl.2 hl'.2 hcol)

/-! ## Two runs -/

/-- **Two runs apart in their layouts only.** -/
def Run.DiffersIn {α : Type} (r r' : Run α) (l l' : Option Layout) : Prop :=
  ∃ d : Circuit, r.circuit = some { d with layout := l } ∧
    r' = { r with circuit := some { d with layout := l' } }

/-- A recorded plan that succeeded has put its gates in front of those that were there. -/
theorem Plan.record_eq_of_ok {α : Type} {p : Plan α} {M : ParityMatrix} {c : Circuit} {a : α}
    (h : (p.record M (some c)).outcome = .ok a) :
    p.record M (some c) = ⟨p.work.matrix, some (c.prepend (rowAdditions p.work.events)),
      p.work.events, .ok a⟩ := by
  cases hrejection : (transcribe recordIn p.work.events (some c)).rejection with
  | some e =>
    rw [p.record_of_rejected M hrejection] at h
    cases h
  | none =>
    have hrecord := p.record_of_accepted M hrejection
    rw [hrecord] at h ⊢
    rw [← h]
    rfl

variable {α : Type} {G? : Option CouplingGraph} {M : ParityMatrix} {c : Circuit}
  {l l' : Option Layout}

/-- A plan leaves the layout alone. -/
theorem Plan.record_differsIn {p : Plan α} {a a' : α}
    (h : (p.record M (some { c with layout := l })).outcome = .ok a)
    (h' : (p.record M (some { c with layout := l' })).outcome = .ok a') :
    (p.record M (some { c with layout := l })).DiffersIn
      (p.record M (some { c with layout := l' })) l l' := by
  obtain rfl : a = a' :=
    Except.ok.inj ((Plan.eq_of_record_ok h).1.symm.trans (Plan.eq_of_record_ok h').1)
  rw [Plan.record_eq_of_ok h, Plan.record_eq_of_ok h']
  exact ⟨c.prepend (rowAdditions p.work.events), rfl, rfl⟩

/-- **What becomes of two layouts** on `n` qubits, one for each of two runs: they are replaced by
the same one, or the layouts afterwards mean the same exactly if those before did. -/
def Layout.Handed (replaced : Prop) (n : ℕ) (l l' l₁ l₁' : Option Layout) : Prop :=
  (replaced → l₁ = l₁') ∧ (¬ replaced →
    (l₁.getD (identity n) = l₁'.getD (identity n) ↔ l.getD (identity n) = l'.getD (identity n)))

namespace Method

/-- Free vertex elimination. -/
def IsFree : Method → Prop
  | .permRowCol .. => True
  | _ => False

/-- The methods that attach a layout. -/
def AttachesLayout : Method → Prop
  | .gauss _ | .steiner .. | .rowCol => False
  | .permRowCol .. | .genetic .. | .swarm .. => True

/-- **Layouts brought along**: two successful runs of the method on circuits that differ in their
layouts differ in their layouts only. -/
def HandsLayouts (m : Method) (G? : Option CouplingGraph) : Prop :=
  ∀ {M : ParityMatrix} {c : Circuit} {l l' : Option Layout} {k k' : ℕ},
    (m.reduce G? M (some { c with layout := l })).outcome = .ok k →
    (m.reduce G? M (some { c with layout := l' })).outcome = .ok k' →
    ∃ l₁ l₁', (m.reduce G? M (some { c with layout := l })).DiffersIn
        (m.reduce G? M (some { c with layout := l' })) l₁ l₁' ∧
      Layout.Handed m.innermost.IsFree M.rows l l' l₁ l₁' ∧
      (m.AttachesLayout → l₁.isSome = true ∧ l₁'.isSome = true)

/-! ## Eliminations -/

/-- Free vertex elimination attaches the layout of its output, whatever was there. -/
theorem handsLayouts_permRowCol (row : RowStrategy) (column : ColumnStrategy)
    (search : Option BestFirst) : (Method.permRowCol row column search).HandsLayouts G? := by
  intro M c l l' k k' hk hk'
  rw [reduce_permRowCol] at hk hk'
  obtain ⟨output, hmapped, _⟩ := Run.map_ok hk
  obtain ⟨output', hmapped', _⟩ := Run.map_ok hk'
  have hok := Run.mapCircuit_ok hmapped
  have hok' := Run.mapCircuit_ok hmapped'
  obtain ⟨d, hd, hrun⟩ : (permute row column search G? M (some { c with layout := l })).DiffersIn
      (permute row column search G? M (some { c with layout := l' })) l l' := by
    rw [permute_eq_record] at hok hok' ⊢
    rw [permute_eq_record]
    exact Plan.record_differsIn hok hok'
  rw [hrun] at hmapped'
  obtain ⟨hok, d₁, hd₁, hreduce⟩ := Run.mapCircuit_eq_of_ok hd hmapped
  obtain ⟨hok', d₁', hd₁', hreduce'⟩ := Run.mapCircuit_eq_of_ok rfl hmapped'
  obtain rfl : output = output' := Except.ok.inj (hok.symm.trans hok')
  obtain ⟨rfl, _⟩ := attachOutput_ok hd₁
  obtain ⟨rfl, _⟩ := attachOutput_ok hd₁'
  -- both layouts are those of the one output
  have hattach := (congrArg (Run.mapCircuit attachOutput) hrun).trans hreduce'
  have hfirst : (Method.permRowCol row column search).reduce G? M (some { c with layout := l }) =
      _ := congrArg (Run.map List.length) hreduce
  have hsecond : (Method.permRowCol row column search).reduce G? M (some { c with layout := l' }) =
      _ := congrArg (Run.map List.length) hattach
  rw [hfirst, hsecond]
  exact ⟨_, _, ⟨d, rfl, rfl⟩, ⟨fun _ => rfl, absurd trivial⟩, fun _ => ⟨rfl, rfl⟩⟩

/-- An elimination that only records a plan leaves the layout alone. -/
theorem handsLayouts_of_plan {m : Method} {p : ParityMatrix → Plan ℕ}
    (hp : ∀ M c?, m.reduce G? M c? = (p M).record M c?) (hfree : ¬ m.innermost.IsFree)
    (hattaches : ¬ m.AttachesLayout) : m.HandsLayouts G? := by
  intro M c l l' k k' hk hk'
  rw [hp] at hk hk' ⊢
  rw [hp]
  exact ⟨l, l', Plan.record_differsIn hk hk', ⟨fun h => absurd h hfree, fun _ => Iff.rfl⟩,
    fun h => absurd h hattaches⟩

/-! ## Searches -/

/-- `m` searches placements for `base`. -/
inductive Searches : Method → Method → Prop
  | genetic (base : Method) (s : SearchSettings) : Searches (.genetic base s) base
  | swarm (base : Method) (s : SearchSettings) : Searches (.swarm base s) base

/-- **What a search does**: it fails, or it settles on placements of a square matrix, in either case
whatever the circuit. -/
theorem Searches.reduce_cases {m base : Method} (hm : m.Searches base) (G? : Option CouplingGraph)
    (M : ParityMatrix) :
    (∃ e events, ∀ c?, m.reduce G? M c? = ⟨M, c?, events, .error e⟩) ∨
      ∃ rows cols events, (∀ N, M.relabel? rows cols = .ok N → M.cols = M.rows) ∧
        ∀ c?, m.reduce G? M c? = reduceRelabelled base.reduce G? M c? rows cols events := by
  cases hm with
  | genetic _ s =>
    cases hplacement : geneticPlacement base.reduce s G? M with
    | error breach => exact .inl ⟨_, [], fun c? => reduce_genetic_of_error c? hplacement⟩
    | ok found =>
      refine .inr ⟨found.2, found.2, found.1, fun N hN => ?_,
        fun c? => reduce_genetic_of_ok c? hplacement⟩
      -- one placement for both axes
      obtain ⟨hrows, hcols, _⟩ := relabel?_ok hN
      exact hcols.length_eq.symm.trans hrows.length_eq
  | swarm _ s =>
    rcases hplacement : swarmPlacement base.reduce s G? M with ⟨e | solution, events⟩
    · exact .inl ⟨e, events, fun c? => reduce_swarm_of_error c? hplacement⟩
    · refine .inr ⟨_, _, events, fun _ _ => ?_, fun c? => reduce_swarm_of_ok c? hplacement⟩
      obtain ⟨_, _, hsizes, _⟩ := Chain.Reporting.bind_eq_ok_iff.mp ⟨events, hplacement⟩
      exact ((Chain.Engine.checkSizes_ok hsizes).2 M List.mem_cons_self).2

/-- Placements that are accepted have been composed with the layout that was there. -/
theorem attachPlacement_ok {rows cols : List ℕ} {c d : Circuit}
    (h : attachPlacement rows cols c = .ok d) :
    (c.layout.getD (Layout.identity rows.length)).Below rows cols ∧
      d.layout = some ((c.layout.getD (Layout.identity rows.length)).after rows cols) ∧
      d = { c with layout := d.layout } := by
  unfold attachPlacement Permutation.compose? at h
  dsimp only at h
  split at h
  · next hrow =>
    split at h
    · next hcol =>
      cases hset : c.setLayout ((c.layout.getD (Layout.identity rows.length)).after rows cols) with
      | error e =>
        have h : Except.error _ = Except.ok d := (congrArg (Except.mapError _) hset).symm.trans h
        cases h
      | ok d' =>
        have h : Except.ok d' = Except.ok d := (congrArg (Except.mapError _) hset).symm.trans h
        cases h
        rw [Circuit.setLayout_ok hset]
        simp only [List.all_eq_true, decide_eq_true_eq] at hrow hcol
        exact ⟨⟨hrow, hcol⟩, rfl, rfl⟩
    · cases h
  · cases h

/-- Relabel, reduce, attach: the layouts found inside, composed with the placements. -/
theorem reduceRelabelled_handsLayouts {base : Method} (hbase : base.HandsLayouts G?)
    {rows cols : List ℕ} {events : List Event} {k k' : ℕ}
    (hk : (reduceRelabelled base.reduce G? M (some { c with layout := l }) rows cols
      events).outcome = .ok k)
    (hk' : (reduceRelabelled base.reduce G? M (some { c with layout := l' }) rows cols
      events).outcome = .ok k') :
    ∃ l₁ l₁', (reduceRelabelled base.reduce G? M (some { c with layout := l }) rows cols
        events).DiffersIn (reduceRelabelled base.reduce G? M (some { c with layout := l' }) rows
          cols events) (some l₁) (some l₁') ∧
      Layout.Handed base.innermost.IsFree M.rows l l' (some l₁) (some l₁') := by
  obtain ⟨N, hrelabel, hreduce, hinner⟩ := reduceRelabelled_of_outcome hk
  obtain ⟨hrows, hcols, hN⟩ := relabel?_ok hrelabel
  have hinner' : (base.reduce G? N (some { c with layout := l' })).outcome = .ok k' := by
    rw [hreduce] at hk'
    exact Run.mapCircuit_ok (r := ⟨_, _, events, _⟩) hk'
  rw [hreduce] at hk hk' ⊢
  rw [hreduce]
  obtain ⟨l₁, l₁', ⟨d, hd, hrun⟩, hhanded, _⟩ := hbase hinner hinner'
  rw [hrun] at hk' ⊢
  obtain ⟨_, d₁, hd₁, hmapped⟩ := Run.mapCircuit_eq_of_ok (r := ⟨_, _, events, _⟩) hd hk
  obtain ⟨_, d₁', hd₁', hmapped'⟩ := Run.mapCircuit_eq_of_ok rfl hk'
  obtain ⟨hbelow, hlayout, hd₁⟩ := attachPlacement_ok hd₁
  obtain ⟨hbelow', hlayout', hd₁'⟩ := attachPlacement_ok hd₁'
  rw [hmapped, hmapped', hd₁, hd₁', hlayout, hlayout']
  refine ⟨_, _, ⟨d, rfl, rfl⟩, ?_, ?_⟩
  · intro hfree
    rw [hhanded.1 hfree]
  · intro hfree
    refine (Layout.after_inj hrows.nodup hcols.nodup hbelow hbelow').trans ?_
    rw [hrows.length_eq]
    rw [hN] at hhanded
    exact hhanded.2 hfree

/-- A search hands layouts on if what it wraps does. -/
theorem Searches.handsLayouts {m base : Method} (hm : m.Searches base)
    (hbase : base.HandsLayouts G?) : m.HandsLayouts G? := by
  intro M c l l' k k' hk hk'
  have hinner : m.innermost = base.innermost := by cases hm <;> rfl
  rcases hm.reduce_cases G? M with ⟨e, events, hreduce⟩ | ⟨rows, cols, events, _, hreduce⟩
  · rw [hreduce] at hk
    cases hk
  · rw [hreduce] at hk hk' ⊢
    rw [hreduce, hinner]
    obtain ⟨l₁, l₁', hdiffers, hhanded⟩ := reduceRelabelled_handsLayouts hbase hk hk'
    exact ⟨some l₁, some l₁', hdiffers, hhanded, fun _ => ⟨rfl, rfl⟩⟩

/-- **Two successful runs on circuits that differ in their layouts**, of any method. -/
theorem reduce_differsIn (m : Method) : m.HandsLayouts G? := by
  -- an elimination attaches its layout or none, and a search composes with what it finds inside
  induction m with
  | gauss full => exact handsLayouts_of_plan (fun M c? => reduce_gauss G? M c? full) id id
  | steiner full order =>
    exact handsLayouts_of_plan (fun M c? => reduce_steiner G? M c? full order) id id
  | rowCol => exact handsLayouts_of_plan (fun M c? => reduce_rowCol G? M c?) id id
  | permRowCol row column search => exact handsLayouts_permRowCol row column search
  | genetic base s ih => exact (Searches.genetic base s).handsLayouts ih
  | swarm base s ih => exact (Searches.swarm base s).handsLayouts ih

/-- The methods that are free. -/
theorem isFree_iff {m : Method} :
    m.IsFree ↔ ∃ row column search, m = .permRowCol row column search := by
  cases m <;> simp [IsFree]

/-- **When a layout brought along makes no difference.** Two successful runs of a method that
attaches a layout, on circuits that are alike but for the layouts they carry, do the same to the
matrix and leave the same gates. They leave the same circuit exactly if free vertex elimination is
in the middle of the method, or the two layouts said the same to begin with: around any other
elimination, a search composes its placements with the layout from before. -/
theorem reduce_circuit_eq_iff {m : Method} (hm : m.AttachesLayout) {k k' : ℕ}
    (hk : (m.reduce G? M (some { c with layout := l })).outcome = .ok k)
    (hk' : (m.reduce G? M (some { c with layout := l' })).outcome = .ok k') :
    let run := m.reduce G? M (some { c with layout := l })
    let run' := m.reduce G? M (some { c with layout := l' })
    run.matrix = run'.matrix ∧ run.events = run'.events ∧ k = k' ∧
      ∃ (d d' : Circuit) (left left' : Layout), run.circuit = some d ∧ run'.circuit = some d' ∧
        d.qubits = d'.qubits ∧ d.gates = d'.gates ∧ d.layout = some left ∧ d'.layout = some left' ∧
        (d = d' ↔ (∃ row column search, m.innermost = .permRowCol row column search) ∨
          l.getD (Layout.identity M.rows) = l'.getD (Layout.identity M.rows)) := by
  obtain ⟨l₁, l₁', ⟨d, hd, hrun⟩, ⟨hreplaced, hkept⟩, hsome⟩ := m.reduce_differsIn hk hk'
  obtain ⟨left, rfl⟩ := Option.isSome_iff_exists.mp (hsome hm).1
  obtain ⟨left', rfl⟩ := Option.isSome_iff_exists.mp (hsome hm).2
  dsimp only
  rw [hrun] at hk' ⊢
  refine ⟨rfl, rfl, Except.ok.inj (hk.symm.trans hk'), _, _, left, left', hd, rfl, rfl, rfl, rfl,
    rfl, ?_⟩
  rw [← isFree_iff]
  by_cases hfree : m.innermost.IsFree
  · rw [hreplaced hfree]
    exact iff_of_true rfl (.inl hfree)
  · refine Iff.trans ?_ ((hkept hfree).trans (or_iff_right hfree).symm)
    simp

/-- A genetic search around free vertex elimination on two qubits, with a layout brought along and
without. -/
theorem reduce_circuit_eq_two :
    let s : SearchSettings :=
      ⟨.combined, ⟨1, 0.8, 0.2, 0, none⟩, ⟨1, 0, 0.4, 0.3, 0.2⟩, 0,
        fun _ => ⟨Dice.ofWords, fun _ => [0], 0, []⟩⟩
    let m : Method := .genetic (.permRowCol lightestRow lightestColumn none) s
    let M := (identity 2).addRow 0 1
    let old := Layout.mk [1, 0] [0, 1]
    let run := m.reduce none M (some (Circuit.empty 2))
    let run' := m.reduce none M (some { Circuit.empty 2 with layout := some old })
    m.AttachesLayout ∧ run.outcome = .ok 2 ∧ run'.outcome = .ok 2 ∧
      run.circuit = run'.circuit ∧ run.circuit.bind Circuit.layout ≠ none := by
  intro s m M old run run'
  have hm : m.AttachesLayout := trivial
  have hk : run.outcome = .ok 2 := eq_ok_of_toOption (by decide +kernel)
  have hk' : run'.outcome = .ok 2 := eq_ok_of_toOption (by decide +kernel)
  obtain ⟨_, _, _, d, d', left, left', hd, hd', _, _, hleft, _, hiff⟩ :=
    reduce_circuit_eq_iff (c := Circuit.empty 2) (l := none) hm hk hk'
  have heq : d = d' := hiff.mpr (.inl ⟨_, _, _, rfl⟩)
  refine ⟨hm, hk, hk', (hd.trans (congrArg some heq)).trans hd'.symm, ?_⟩
  rw [show run.circuit = some d from hd, Option.bind_some, hleft]
  exact Option.some_ne_none left

/-- **A layout from before is carried on**: a genetic search around Gaussian elimination, on two
qubits with nothing to do. -/
theorem reduce_keeps_entry_layout :
    let s : SearchSettings :=
      ⟨.combined, ⟨1, 0.8, 0.2, 0, none⟩, ⟨1, 0, 0.4, 0.3, 0.2⟩, 0,
        fun _ => ⟨Dice.ofWords, fun _ => [0], 0, []⟩⟩
    let m : Method := .genetic (.gauss true) s
    let old := Layout.mk [1, 0] [0, 1]
    let run := m.reduce none (identity 2) (some (Circuit.empty 2))
    let run' := m.reduce none (identity 2) (some { Circuit.empty 2 with layout := some old })
    run.outcome.toOption = some 2 ∧ run'.outcome.toOption = some 2 ∧
      run.circuit = some ⟨2, [], some ⟨[0, 1], [0, 1]⟩⟩ ∧
      run'.circuit = some ⟨2, [], some ⟨[1, 0], [0, 1]⟩⟩ := by
  decide +kernel

end Method

end CnotSynthesis
