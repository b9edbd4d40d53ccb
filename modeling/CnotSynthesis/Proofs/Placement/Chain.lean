import CnotSynthesis.Placement.Chain
import CnotSynthesis.Proofs.Elimination.Solving
import CnotSynthesis.Proofs.Placement.Genetic
import CnotSynthesis.Proofs.Placement.Swarm

/-! # Chains of invertible matrices

* **`Reporting.Yields F x Q`** — the triple of a reporting computation: a result with the property
  `Q`, or an error and then `F`. With `F` false it is total correctness, with `F` true partial.
* **`Engine.Works e n E`** — the elimination of the engine solves invertible matrices of `n` rows.
* **`Links E n placements Ms circuits`** — circuits for the matrices, each laid out by the
  placements on its two sides.
* **`Engine.link_yields`** — an element of a chain; **`Engine.linksFrom_yields`** for a whole chain,
  **`Engine.pass_yields`** for one with its ends.
* **`Engine.swarm_yields`** — a swarm search finds a chain; **`Engine.synthesize_yields`** — so does
  every strategy. -/

namespace CnotSynthesis

namespace Chain

variable {α β : Type}

/-! ## Triples -/

/-- **The triple of a reporting computation**: nothing reported before is lost, and the result has
the property `Q`; or it fails, and then `F` holds. -/
def Reporting.Yields (F : Prop) (x : Reporting α) (Q : α → Prop) : Prop :=
  ∀ log, match x.run.run log with
    | (.ok a, log') => log <+: log' ∧ Q a
    | (.error _, _) => F

/-- **One part after the other**: the second one goes on with the log of the first one, unless that
failed. -/
theorem Reporting.run_bind (x : Reporting α) (f : α → Reporting β) (log : List Event) :
    (x >>= f).run.run log = match x.run.run log with
      | (.ok a, log') => (f a).run.run log'
      | (.error e, log') => (.error e, log') := by
  change (ExceptT.bindCont (m := StateM (List Event)) f (x.run.run log).1) (x.run.run log).2 = _
  rcases x.run.run log with ⟨_ | _, _⟩ <;> rfl

namespace Reporting

variable {F F' : Prop} {x : Reporting α} {f : α → Reporting β} {Q R : α → Prop} {S : β → Prop}

/-- One part after the other: what the first one leaves is what the second one starts from. -/
theorem Yields.bind (h : Yields F x Q) (hf : ∀ a, Q a → Yields F (f a) S) :
    Yields F (x >>= f) S := by
  intro log
  have hx := h log
  rw [run_bind]
  rcases hrun : x.run.run log with ⟨e | a, log'⟩
  · rw [hrun] at hx
    exact hx
  · rw [hrun] at hx
    have hfa := hf a hx.2 log'
    dsimp only
    rcases hrun' : (f a).run.run log' with ⟨e | b, log''⟩
    · rw [hrun'] at hfa
      exact hfa
    · rw [hrun'] at hfa
      exact ⟨hx.1.trans hfa.1, hfa.2⟩

/-- Less may be asked of the results, and more failures allowed. -/
theorem Yields.mono (h : Yields F x Q) (hF : F → F') (hQ : ∀ a, Q a → R a) : Yields F' x R := by
  intro log
  have hx := h log
  rcases hrun : x.run.run log with ⟨e | a, log'⟩
  · rw [hrun] at hx
    exact hF hx
  · rw [hrun] at hx
    exact ⟨hx.1, hQ a hx.2⟩

/-- A total triple says what a run does. -/
theorem Yields.run_eq (h : Yields False x Q) (log : List Event) :
    ∃ a events, x.run.run log = (.ok a, log ++ events) ∧ Q a := by
  have hx := h log
  rcases hrun : x.run.run log with ⟨e | a, log'⟩
  · rw [hrun] at hx
    exact hx.elim
  · rw [hrun] at hx
    obtain ⟨⟨events, rfl⟩, ha⟩ := hx
    exact ⟨a, events, rfl, ha⟩

/-- Any triple says what a result is like. -/
theorem Yields.of_run_eq (h : Yields F x Q) {a : α} {log log' : List Event}
    (hrun : x.run.run log = (.ok a, log')) : Q a := by
  have hx := h log
  rw [hrun] at hx
  exact hx.2

/-- Done, with a value that is right. -/
theorem yields_pure {a : α} (h : Q a) : Yields F (pure a) Q := fun _ => ⟨List.prefix_rfl, h⟩

/-- Reporting comes first. -/
theorem yields_report_bind {events : List Event} {f : Unit → Reporting β}
    (h : Yields F (f ()) S) : Yields F (report events >>= f) S := by
  have hreport : Yields F (report events) fun _ => True :=
    fun log => ⟨List.prefix_append log events, trivial⟩
  exact hreport.bind fun _ _ => h

/-- A computation on the side comes first. -/
theorem yields_lift_bind {r : Except (Fault SynthesisError) α} (herror : ∀ e, r = .error e → F)
    (hok : ∀ a, r = .ok a → Yields F (f a) S) : Yields F (liftM r >>= f) S := by
  cases r with
  | ok a => exact hok a rfl
  | error e => exact fun _ => herror e rfl

/-- A computation of the algebra comes first. -/
theorem yields_algebraic_bind {r : Except AlgebraError α} (herror : ∀ e, r = .error e → F)
    (hok : ∀ a, r = .ok a → Yields F (f a) S) : Yields F (algebraic r >>= f) S := by
  cases r with
  | ok a => exact hok a rfl
  | error e => exact fun _ => herror e rfl

/-- A computation under contract comes first. -/
theorem yields_contractual_bind {r : Except Breach α} (herror : ∀ e, r = .error e → F)
    (hok : ∀ a, r = .ok a → Yields F (f a) S) : Yields F (contractual r >>= f) S := by
  cases r with
  | ok a => exact hok a rfl
  | error e => exact fun _ => herror e rfl

/-! ## Results -/

/-- A sequence succeeds if both parts do, the second from where the first one got. -/
theorem bind_eq_ok_iff {b : β} {log : List Event} :
    (∃ log', (x >>= f).run.run log = (.ok b, log')) ↔
      ∃ a log₁, x.run.run log = (.ok a, log₁) ∧ ∃ log', (f a).run.run log₁ = (.ok b, log') := by
  rw [run_bind]
  rcases x.run.run log with ⟨e | a, log₁⟩
  · constructor
    · rintro ⟨_, ⟨⟩⟩
    · rintro ⟨_, _, ⟨⟩, _⟩
  · constructor
    · exact fun h => ⟨a, log₁, rfl, h⟩
    · rintro ⟨_, _, ⟨⟩, h⟩
      exact h

/-- When a computation on the side, followed by something else, succeeds. -/
theorem lift_bind_eq_ok_iff {r : Except (Fault SynthesisError) α} {b : β} {log : List Event} :
    (∃ log', ((liftM r : Reporting α) >>= f).run.run log = (.ok b, log')) ↔
      ∃ a, r = .ok a ∧ ∃ log', (f a).run.run log = (.ok b, log') := by
  cases r with
  | error e =>
    constructor
    · rintro ⟨_, ⟨⟩⟩
    · rintro ⟨_, ⟨⟩, _⟩
  | ok a =>
    constructor
    · exact fun h => ⟨a, rfl, h⟩
    · rintro ⟨_, ⟨⟩, h⟩
      exact h

/-- A value returned is the result. -/
theorem pure_eq_ok_iff {a b : β} {log : List Event} :
    (∃ log', (pure a : Reporting β).run.run log = (.ok b, log')) ↔ b = a := by
  constructor
  · rintro ⟨_, h⟩
    cases h
    rfl
  · rintro rfl
    exact ⟨log, rfl⟩

end Reporting

end Chain

/-! ## Tasks -/

/-- Trying the identity breaks no contract, if the elimination makes a circuit of the matrix. -/
theorem Placement.Task.check_range {t : Placement.Task} {n : ℕ} {c : Circuit}
    (hrows : t.matrix.rows = n) (hcols : t.matrix.cols = n) (hroom : n < addressLimit)
    (hmakes : (t.reduce t.graph t.matrix (some (Circuit.empty n))).Makes n c) :
    t.requireAxes = .ok () ∧ t.check (List.range n) = .ok () := by
  have haxes : t.requireAxes = .ok () := by
    unfold requireAxes
    rw [hrows, hcols, requireRoom_eq_ok hroom]
    rfl
  have hrow : IsPermutation (List.range n) t.matrix.rows := hrows ▸ isPermutation_range _
  have hcol : IsPermutation (List.range n) t.matrix.cols := hcols ▸ isPermutation_range _
  have hidentity := t.matrix.relabel_range
  rw [hrows, hcols] at hidentity
  have hrelabel : t.relabel (List.range n) = some t.matrix := by
    unfold relabel
    rw [hrows, hcols, ite_self, ite_self]
    dsimp only
    rw [ParityMatrix.relabel?_eq hrow hcol, hidentity]
    rfl
  obtain ⟨k, hk⟩ := hmakes.outcome_ok
  refine ⟨haxes, ?_⟩
  unfold check run
  rw [haxes, hrelabel, Option.map_some, Option.map_some, hrows, hk]
  rfl

namespace Chain

open Reporting

variable {e : Engine} {n : ℕ} {E : ℕ → ℕ → Prop} {F : Prop} {M : ParityMatrix}

namespace Engine

/-- **An engine that works** on `n` qubits: its elimination solves invertible matrices, and there is
room for its searches. -/
structure Works (e : Engine) (n : ℕ) (E : ℕ → ℕ → Prop) : Prop where
  solves : e.reduce.Solves e.graph n E
  room : n < addressLimit
  population : 0 < e.search.genetic.populationSize

/-! ## One element -/

/-- **A placement for one element** is what a genetic search finds, if the elimination makes a
circuit of the element left in place. -/
theorem place_finds (hrows : M.rows = n) (hcols : M.cols = n) (hroom : n < addressLimit)
    {c : Circuit} (hmakes : (e.reduce e.graph M (some (Circuit.empty n))).Makes n c) (index : ℕ)
    (free : Freedom) :
    Yields F (e.place index n free M) fun p => p = (Genetic.find e.search.genetic
      (Placement.Task.fitness ⟨M, e.reduce, e.graph, e.search.metric, free.rows, free.columns⟩) n
      e.search.genetic.generations (Genetic.State.start (e.search.generator index))).2.2 := by
  unfold place
  dsimp only
  refine yields_contractual_bind ?_ fun _ _ => yields_report_bind (yields_pure rfl)
  intro breach h
  rw [(Placement.Task.check_range hrows hcols hroom hmakes).2] at h
  cases h

/-- A placement that is searched for is a permutation. -/
theorem place_yields (he : e.Works n E) (hrows : M.rows = n) (hM : M.IsInvertible) (index : ℕ)
    (free : Freedom) : Yields F (e.place index n free M) fun p => IsPermutation p n := by
  obtain ⟨c, hsolved, _⟩ := he.solves M hrows hM
  refine (place_finds hrows (hM.cols_eq.trans hrows) he.room (hsolved.makes hrows) index free).mono
    id ?_
  rintro _ rfl
  exact Genetic.isPermutation_find he.population _ _ _ _

end Engine

/-- **An element for `M`**: its circuit carries out `M`, laid out by the placements of its rows and
columns. -/
structure Link.Carries (l : Link) (M : ParityMatrix) (E : ℕ → ℕ → Prop) (n : ℕ) : Prop where
  input : IsPermutation l.input n
  output : IsPermutation l.output n
  realises : l.circuit.Realises M E
  layout_eq : l.circuit.layout = some ⟨l.output, l.input⟩

namespace Engine

/-- **An element on given placements**: the rows are placed by `rowPerm`, and the columns, which
`current` has placed before, by `colPerm` on top. -/
theorem reduceLink_makes (hrows : M.rows = n) (hcols : M.cols = n)
    {current rowPerm colPerm : List ℕ} (hcurrent : IsPermutation current n)
    (hrow : IsPermutation rowPerm n) (hcol : IsPermutation colPerm n) {c : Circuit}
    (hmakes : (e.reduce e.graph (M.relabel rowPerm (Permutation.compose current colPerm))
      (some (Circuit.empty n))).Makes n c) :
    Yields F (e.reduceLink n current rowPerm colPerm (M.relabel (List.range n) current)) fun l =>
      l = ⟨{ c with layout := some ⟨rowPerm, Permutation.compose current colPerm⟩ },
        Permutation.compose current colPerm, rowPerm⟩ := by
  have hinput := hcurrent.compose hcol
  -- the two relabellings are one
  have hrelabel : (M.relabel (List.range n) current).relabel? rowPerm colPerm =
      .ok (M.relabel rowPerm (Permutation.compose current colPerm)) := by
    rw [ParityMatrix.relabel?_eq (hrows ▸ hrow) (hcols ▸ hcol),
      ParityMatrix.relabel_relabel (hrows ▸ hrow) (hcols ▸ hcol), Permutation.range_compose hrow.lt]
  obtain ⟨k, hk⟩ := hmakes.outcome_ok
  have hqubits := hmakes.qubits_eq
  unfold reduceLink
  rw [hrelabel]
  refine yields_algebraic_bind (by simp) ?_
  rintro _ ⟨⟩
  have hrest : Yields F (do
      let _ ← liftM (e.reduce e.graph (M.relabel rowPerm (Permutation.compose current colPerm))
        (some (Circuit.empty n))).outcome
      let circuit ← algebraic (((e.reduce e.graph (M.relabel rowPerm
        (Permutation.compose current colPerm)) (some (Circuit.empty n))).circuit.getD
          (Circuit.empty n)).setLayout ⟨rowPerm, Permutation.compose current colPerm⟩)
      pure (⟨circuit, Permutation.compose current colPerm, rowPerm⟩ : Link))
      fun l => l = ⟨{ c with layout := some ⟨rowPerm, Permutation.compose current colPerm⟩ },
        Permutation.compose current colPerm, rowPerm⟩ := by
    rw [hk, hmakes.circuit_eq]
    refine yields_lift_bind (by simp) fun _ _ => ?_
    rw [Option.getD_some, Circuit.setLayout_eq (hqubits ▸ hrow) (hqubits ▸ hinput)]
    refine yields_algebraic_bind (by simp) ?_
    rintro _ ⟨⟩
    exact yields_pure rfl
  dsimp only
  split
  · exact yields_report_bind hrest
  · exact hrest

/-- A link that was reduced carries its placements. -/
theorem reduceLink_yields (he : e.Works n E) (hrows : M.rows = n) (hM : M.IsInvertible)
    {current rowPerm colPerm : List ℕ} (hcurrent : IsPermutation current n)
    (hrow : IsPermutation rowPerm n) (hcol : IsPermutation colPerm n) :
    Yields F (e.reduceLink n current rowPerm colPerm (M.relabel (List.range n) current)) fun l =>
      l.Carries M E n ∧ l.input = Permutation.compose current colPerm ∧ l.output = rowPerm := by
  have hinput := hcurrent.compose hcol
  obtain ⟨c, hsolved, hlayout, _⟩ := he.solves
    (M.relabel rowPerm (Permutation.compose current colPerm)) hrows
    (hM.relabel (hrows ▸ hrow) (hrows ▸ hinput))
  have hplaced := hsolved.realises.place hlayout hM.cols_eq (hrows ▸ hrow) (hrows ▸ hinput)
  refine (reduceLink_makes hrows (hM.cols_eq.trans hrows) hcurrent hrow hcol
    (hsolved.makes hrows)).mono id ?_
  rintro _ rfl
  exact ⟨⟨hinput, hrow, hplaced, rfl⟩, rfl, rfl⟩

/-- **An element of a chain**: ends that are not free, or not searched for, stay where they are. -/
theorem link_yields (he : e.Works n E) (hrows : M.rows = n) (hM : M.IsInvertible) (index : ℕ)
    (search : Bool) (free : Freedom) {current : List ℕ} (hcurrent : IsPermutation current n) :
    Yields F (e.link index n search free current M) fun l => l.Carries M E n ∧
      (free.columns = false ∨ search = false → l.input = current) ∧
      (free.rows = false ∨ search = false → l.output = List.range n) := by
  have hcols : M.cols = n := hM.cols_eq.trans hrows
  have hidentity := isPermutation_range n
  have hN : (M.relabel (List.range n) current).IsInvertible :=
    hM.relabel (hrows ▸ hidentity) (hrows ▸ hcurrent)
  unfold link
  dsimp only
  rw [ParityMatrix.relabel?_eq (hrows ▸ hidentity) (hcols ▸ hcurrent)]
  refine yields_algebraic_bind (by simp) ?_
  rintro _ ⟨⟩
  -- a placement that was searched for, or the identity
  have hrest : ∀ p, IsPermutation p n → (search = false → p = List.range n) → Yields F
      (e.reduceLink n current (if free.rows = true then p else List.range n)
        (if free.columns = true then p else List.range n) (M.relabel (List.range n) current))
      fun l => l.Carries M E n ∧
        (free.columns = false ∨ search = false → l.input = current) ∧
        (free.rows = false ∨ search = false → l.output = List.range n) := by
    intro p hp hfixed
    have hends : ∀ b : Bool, IsPermutation (if b = true then p else List.range n) n ∧
        (b = false ∨ search = false → (if b = true then p else List.range n) = List.range n) := by
      intro b
      cases b with
      | false => exact ⟨hidentity, fun _ => rfl⟩
      | true => exact ⟨hp, fun h => hfixed (h.resolve_left nofun)⟩
    refine (reduceLink_yields he hrows hM hcurrent (hends free.rows).1 (hends free.columns).1).mono
      id ?_
    rintro l ⟨hcarries, hinput, houtput⟩
    refine ⟨hcarries, fun h => ?_, fun h => houtput.trans ((hends free.rows).2 h)⟩
    rw [hinput, (hends free.columns).2 h]
    exact hcurrent.compose_range
  split
  · next hsearch =>
    have hsearch : search = true := (Bool.and_eq_true_iff.mp hsearch).1
    have hrows : (M.relabel (List.range n) current).rows = n := hrows
    refine (place_yields he hrows hN index free).bind fun p hp => hrest p hp ?_
    rw [hsearch]
    exact nofun
  · exact hrest _ hidentity fun _ => rfl

/-! ## Whole chains -/

/-- The matrices of a chain on `n` qubits. -/
def Solvable (n : ℕ) (Ms : List ParityMatrix) : Prop := ∀ M ∈ Ms, M.rows = n ∧ M.IsInvertible

/-- One invertible matrix can be solved. -/
theorem solvable_singleton (hM : M.IsInvertible) : Solvable M.rows [M] := by
  intro N hN
  rw [List.mem_singleton.mp hN]
  exact ⟨rfl, hM⟩

end Engine

/-- **The elements of a chain** on `n` qubits: a circuit for each matrix, laid out by the placements
before and after it. -/
inductive Links (E : ℕ → ℕ → Prop) (n : ℕ) :
    List (List ℕ) → List ParityMatrix → List Circuit → Prop
  /-- No matrix, and the placement at the end. -/
  | last {p : List ℕ} (hp : IsPermutation p n) : Links E n [p] [] []
  /-- A matrix between two placements. -/
  | link {p q : List ℕ} {ps : List (List ℕ)} {M : ParityMatrix} {Ms : List ParityMatrix}
      {c : Circuit} {cs : List Circuit} (hp : IsPermutation p n) (hc : c.Realises M E)
      (hlayout : c.layout = some ⟨q, p⟩) (h : Links E n (q :: ps) Ms cs) :
      Links E n (p :: q :: ps) (M :: Ms) (c :: cs)

/-- The placements of a chain are permutations. -/
theorem Links.isPermutation {ps : List (List ℕ)} {Ms : List ParityMatrix} {cs : List Circuit}
    (h : Links E n ps Ms cs) : ∀ p ∈ ps, IsPermutation p n := by
  induction h with
  | last hp =>
    intro p hmem
    rwa [List.mem_singleton.mp hmem]
  | link hp _ _ _ ih => exact List.forall_mem_cons.mpr ⟨hp, ih⟩

/-- A chain has a first placement. -/
theorem Links.ne_nil {ps : List (List ℕ)} {Ms : List ParityMatrix} {cs : List Circuit}
    (h : Links E n ps Ms cs) : ps ≠ [] := by
  cases h <;> exact List.cons_ne_nil _ _

/-- Without a matrix there is no second placement. -/
theorem Links.eq_nil {p : List ℕ} {ps : List (List ℕ)} {cs : List Circuit}
    (h : Links E n (p :: ps) [] cs) : ps = [] := by
  cases h
  rfl

/-- **A chain for the matrices** under a metric. -/
structure Solution.Chains (s : Solution) (metric : Metric) (E : ℕ → ℕ → Prop) (n : ℕ)
    (Ms : List ParityMatrix) : Prop where
  links : Links E n s.placements Ms s.circuits
  score_eq : s.score = min (s.circuits.map metric.score).sum infeasible

/-- What is known of the ends of a chain: those that are not free keep their placements, and so do
all if nothing is searched. -/
structure Solution.EndsAt (s : Solution) (initial : List ℕ) (n : ℕ)
    (search inputFree outputFree : Bool) : Prop where
  first : inputFree = false → s.placements.head? = some initial
  last : outputFree = false → s.placements.getLast? = some (List.range n)
  fixed : search = false → initial = List.range n → ∀ p ∈ s.placements, p = List.range n

namespace Engine

/-- **A chain from given columns**, which the first element may place anew. -/
theorem linksFrom_yields (he : e.Works n E) (search outputFree : Bool) (Ms : List ParityMatrix) :
    ∀ (index : ℕ) (columnsFree : Bool) (current : List ℕ), Solvable n Ms →
      IsPermutation current n → (columnsFree = true → Ms ≠ []) →
      Yields F (e.linksFrom n search outputFree index columnsFree current Ms) fun s =>
        Links E n (if columnsFree = true then s.placements else current :: s.placements) Ms
          s.circuits ∧
        s.score = min (s.circuits.map e.search.metric.score).sum infeasible ∧
        (outputFree = false → Ms ≠ [] → s.placements.getLast? = some (List.range n)) ∧
        (search = false → current = List.range n → ∀ p ∈ s.placements, p = List.range n) := by
  induction Ms with
  | nil =>
    intro index columnsFree current _ hcurrent hfree
    have hfixed : columnsFree = false := by
      rw [Bool.eq_false_iff]
      exact fun h => hfree h rfl
    subst hfixed
    exact yields_pure ⟨.last hcurrent, rfl, fun _ h => absurd rfl h, fun _ _ _ h => nomatch h⟩
  | cons M rest ih =>
    intro index columnsFree current hMs hcurrent _
    obtain ⟨hrows, hM⟩ := hMs M List.mem_cons_self
    have hrest : Solvable n rest := fun N hN => hMs N (List.mem_cons_of_mem _ hN)
    refine (link_yields he hrows hM index search _ hcurrent).bind ?_
    rintro l ⟨hcarries, hinput, houtput⟩
    -- the rows just placed are the columns of the next element
    refine (ih (index + 1) false l.output hrest hcarries.output nofun).bind ?_
    rintro tail ⟨hlinks, hscore, hlast, hfixed⟩
    have hlinks : Links E n (l.output :: tail.placements) rest tail.circuits := hlinks
    have hlink : Links E n (l.input :: l.output :: tail.placements) (M :: rest)
        (l.circuit :: tail.circuits) :=
      .link hcarries.input hcarries.realises hcarries.layout_eq hlinks
    refine yields_pure ⟨?_, ?_, ?_, ?_⟩
    · cases columnsFree with
      | true => exact hlink
      | false =>
        rw [hinput (.inl rfl)] at hlink
        exact hlink
    · change min (e.search.metric.score l.circuit + tail.score) infeasible = _
      rw [hscore, List.map_cons, List.sum_cons]
      omega
    · intro hfree _
      have hend : (l.output :: tail.placements).getLast? = some (List.range n) := by
        cases rest with
        | nil =>
          -- this was the last element, and its rows are not free
          rw [hlinks.eq_nil, List.getLast?_singleton, houtput (.inl (by simp [hfree]))]
        | cons N rest =>
          rw [List.getLast?_cons, hlast hfree (List.cons_ne_nil N rest)]
          rfl
      change ((if columnsFree = true then [l.input] else []) ++
        l.output :: tail.placements).getLast? = _
      rw [List.getLast?_append, hend, Option.some_or]
    · rintro hsearch rfl p hp
      have houtput := houtput (.inr hsearch)
      rcases List.mem_append.mp hp with hp | hp
      · split at hp
        · rw [List.mem_singleton.mp hp]
          exact hinput (.inr hsearch)
        · cases hp
      · rcases List.mem_cons.mp hp with rfl | hp
        · exact houtput
        · exact hfixed hsearch houtput p hp

/-- **A pass over a chain.** -/
theorem pass_yields (he : e.Works n E) (search inputFree outputFree : Bool) {Ms : List ParityMatrix}
    (hMs : Solvable n Ms) (hne : Ms ≠ []) {initial : List ℕ} (hinitial : IsPermutation initial n) :
    Yields F (e.pass search inputFree outputFree initial Ms) fun s =>
      s.Chains e.search.metric E n Ms ∧ s.EndsAt initial n search inputFree outputFree := by
  unfold pass
  rw [hinitial.length_eq]
  refine (linksFrom_yields he search outputFree Ms 0 inputFree initial hMs hinitial
    fun _ => hne).bind ?_
  rintro s ⟨hlinks, hscore, hlast, hfixed⟩
  cases inputFree with
  | true => exact yields_pure ⟨⟨hlinks, hscore⟩, nofun, fun h => hlast h hne, hfixed⟩
  | false =>
    refine yields_pure ⟨⟨hlinks, hscore⟩, fun _ => rfl, fun h => ?_, fun hsearch hrange => ?_⟩
    · change (initial :: s.placements).getLast? = _
      rw [List.getLast?_cons, hlast h hne]
      rfl
    · exact List.forall_mem_cons.mpr ⟨hrange, hfixed hsearch hrange⟩

/-- **Forth and back** from a placement. -/
theorem forthAndBack_yields (he : e.Works n E) {Ms : List ParityMatrix} (hMs : Solvable n Ms)
    (hne : Ms ≠ []) {placement : List ℕ} (hplacement : IsPermutation placement n) :
    Yields F (e.forthAndBack Ms placement) fun r =>
      IsPermutation r.1 n ∧ r.2.Chains e.search.metric E n Ms := by
  -- the last placement of a chain
  have hend : ∀ {s : Solution} {Ns : List ParityMatrix} (other : List ℕ),
      s.Chains e.search.metric E n Ns → IsPermutation (s.placements.getLast?.getD other) n := by
    intro s Ns other hs
    rw [List.getLast?_eq_some_getLast hs.links.ne_nil]
    exact hs.links.isPermutation _ (List.getLast_mem hs.links.ne_nil)
  refine (pass_yields he true false true hMs hne hplacement).bind ?_
  rintro forth ⟨hforth, _⟩
  -- back over the transposes, from where the pass forth ended
  have hback : Solvable n (Ms.reverse.map ParityMatrix.transpose) := by
    intro N hN
    obtain ⟨M, hM, rfl⟩ := List.mem_map.mp hN
    obtain ⟨hrows, hinv⟩ := hMs M (List.mem_reverse.mp hM)
    exact ⟨hinv.cols_eq.trans hrows, hinv.transpose⟩
  refine (pass_yields he true false true hback (by simpa using hne) (hend [] hforth)).bind ?_
  rintro back ⟨hback, _⟩
  exact yields_pure ⟨hend placement hback, hforth⟩

/-! ## Strategies -/

/-- **A step of the swarm** goes from placements to placements, and finds chains. -/
theorem staysOn_swarmStep (he : e.Works n E) {Ms : List ParityMatrix} (hMs : Solvable n Ms)
    (hne : Ms ≠ []) :
    Swarm.StaysOn (Solution.Chains · e.search.metric E n Ms) n (e.swarmStep Ms) := by
  have hstep : ∀ p, IsPermutation p n → IsPermutation (e.swarmStep Ms p).next n ∧
      (e.swarmStep Ms p).solution.Chains e.search.metric E n Ms := by
    intro p hp
    obtain ⟨⟨next, forth⟩, events, hrun, hr⟩ :=
      (forthAndBack_yields (F := False) he hMs hne hp).run_eq []
    unfold swarmStep
    rw [hrun]
    exact hr
  exact ⟨fun p hp => (hstep p hp).1, fun p hp => (hstep p hp).2⟩

/-- **A swarm search finds a chain**, whatever is drawn. -/
theorem swarm_yields (he : e.Works n E) (hswarm : e.search.swarm.swarmSize < addressLimit)
    {Ms : List ParityMatrix} (hMs : Solvable n Ms) (hne : Ms ≠ []) :
    Yields F (e.swarm n Ms) fun s => s.Chains e.search.metric E n Ms := by
  -- the trial from the identity succeeds, so only room could be missing
  refine (forthAndBack_yields he hMs hne (isPermutation_range n)).bind fun _ _ => ?_
  have hfind := Swarm.sound_find (s := e.search.swarm) (staysOn_swarmStep he hMs hne)
    e.search.source e.search.seed Solution.empty e.search.swarm.steps
  unfold Swarm.find?
  rw [requireRoom_eq_ok hswarm, requireRoom_eq_ok he.room]
  refine yields_contractual_bind (by rintro _ ⟨⟩) ?_
  rintro _ ⟨⟩
  exact yields_report_bind (yields_pure hfind.solution)

/-- **A swarm that cannot be held** breaks the contract of the search. -/
theorem swarm_breaks (he : e.Works n E) (hswarm : addressLimit ≤ e.search.swarm.swarmSize)
    {Ms : List ParityMatrix} (hMs : Solvable n Ms) (hne : Ms ≠ []) (log : List Event) :
    ∃ log', (e.swarm n Ms).run.run log = (.error (.broken .capacity), log') := by
  obtain ⟨_, events, hrun, _⟩ :=
    (forthAndBack_yields (F := False) he hMs hne (isPermutation_range n)).run_eq log
  have hroom : requireRoom e.search.swarm.swarmSize = .error .capacity :=
    if_neg (Nat.not_lt.mpr hswarm)
  refine ⟨log ++ events, ?_⟩
  unfold swarm Swarm.find?
  rw [run_bind, hrun]
  dsimp only
  rw [hroom]
  rfl

/-- Matrices that can be solved pass the check of their sizes. -/
theorem checkSizes_eq {Ms : List ParityMatrix} (hMs : Solvable n Ms) :
    checkSizes n Ms = pure () := by
  induction Ms with
  | nil => rfl
  | cons M rest ih =>
    obtain ⟨hrows, hM⟩ := hMs M List.mem_cons_self
    unfold checkSizes
    rw [if_pos ⟨hrows, hM.cols_eq.trans hrows⟩]
    exact ih fun N hN => hMs N (List.mem_cons_of_mem _ hN)

/-- **Every strategy finds a chain** of invertible matrices. -/
theorem synthesize_yields (he : e.Works n E) {strategy : Strategy} {inputFree outputFree : Bool}
    (hswarm : strategy = .swarm → inputFree = true → outputFree = true →
      e.search.swarm.swarmSize < addressLimit)
    {Ms : List ParityMatrix} (hMs : Solvable n Ms) (hne : Ms ≠ []) :
    Yields F (e.synthesize strategy Ms inputFree outputFree) fun s =>
      s.Chains e.search.metric E n Ms ∧
        s.EndsAt (List.range n) n (strategy != .basic) inputFree outputFree := by
  obtain ⟨M, rest, rfl⟩ := List.exists_cons_of_ne_nil hne
  have hrows : M.rows = n := (hMs M List.mem_cons_self).1
  have hpass := pass_yields (F := F) he true inputFree outputFree hMs hne (isPermutation_range n)
  unfold synthesize
  dsimp only
  rw [hrows, checkSizes_eq hMs, pure_bind]
  cases strategy with
  | basic =>
    -- nothing is searched, so both ends are where they would be if they were not free
    refine (pass_yields he false false false hMs hne (isPermutation_range n)).mono id ?_
    rintro s ⟨hchains, hends⟩
    exact ⟨hchains, fun _ => hends.first rfl, fun _ => hends.last rfl, fun _ => hends.fixed rfl⟩
  | genetic => exact hpass
  | swarm =>
    dsimp only
    split
    · next hfree =>
      obtain ⟨rfl, rfl⟩ := Bool.and_eq_true_iff.mp hfree
      refine (swarm_yields he (hswarm rfl rfl rfl) hMs hne).mono id fun s hs => ⟨hs, ?_⟩
      exact ⟨nofun, nofun, nofun⟩
    · exact hpass

/-- A swarm over one square matrix. -/
theorem synthesize_swarm_singleton (e : Engine) (hsquare : M.cols = M.rows) :
    e.synthesize .swarm [M] true true = e.swarm M.rows [M] := by
  have hsizes : checkSizes M.rows [M] = pure () := if_pos ⟨rfl, hsquare⟩
  unfold synthesize
  dsimp only
  rw [hsizes, pure_bind]
  rfl

end Engine

end Chain

end CnotSynthesis
