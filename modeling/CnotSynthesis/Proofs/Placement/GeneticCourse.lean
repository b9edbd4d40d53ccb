import CnotSynthesis.Proofs.Placement.Ranking

/-! # The course of a genetic search

* **`Genetic.Course s fitness n history events state`** — a fresh search on `n` qubits has evaluated
  the placements of `history`, made the reports `events`, and is now at `state`.
* **`Genetic.State.Holds`** — what is true of such a search: sizes and members of population and
  pool, the best member, the reports. **`Genetic.Course.holds`** proves it along the course.
* **`Genetic.Course.congr`** — the course depends on the costs of the placements in `history` only.
* **`Genetic.search_invariant`** — fresh and continued searches follow such a course and return
  the best placement. -/

namespace CnotSynthesis.Genetic

open Placement Draw

variable {s : Settings} {fitness : List ℕ → ℕ} {n : ℕ}

/-! ## Sizes -/

/-- A list grows by one at most. -/
theorem length_insertDistinct_le {α : Type} [DecidableEq α] (before : α → α → Bool) (a : α)
    (l : List α) : (insertDistinct before a l).length ≤ l.length + 1 := by
  induction l with
  | nil => exact le_rfl
  | cons b rest ih =>
    unfold insertDistinct
    split
    · exact le_rfl
    · split
      · exact Nat.le_succ _
      · exact Nat.succ_le_succ ih

/-- A population grows by as many as are enrolled, or by fewer. -/
theorem length_enrol_le (population new : List Individual) :
    (enrol population new).length ≤ population.length + new.length := by
  induction new generalizing population with
  | nil => exact le_rfl
  | cons a new ih =>
    have hinsert := length_insertDistinct_le Individual.before a population
    have hrest := ih (insertDistinct Individual.before a population)
    change (enrol (insertDistinct Individual.before a population) new).length ≤ _
    rw [List.length_cons]
    omega

/-! ## Parents -/

/-- Every member has its weight. -/
theorem length_parentWeights (members : List Individual) :
    (parentWeights members).length = members.length := List.length_map _

/-- **Parents are two different members**, whatever the weights are worth. -/
theorem always_pickParents {members : List Individual} (h : 2 ≤ members.length) :
    Always (fun pair => pair.1 < members.length ∧ pair.2 < members.length ∧ pair.1 ≠ pair.2)
      (pickParents (parentWeights members) members.length) := by
  have hlength := length_parentWeights members
  have hsome : parentWeights members ≠ [] := List.ne_nil_of_length_pos (by omega)
  have hweighted := always_weighted hsome
  rw [hlength] at hweighted
  refine hweighted.bind fun first hfirst => hweighted.bind fun second hsecond => ?_
  split
  · refine (always_below (by omega)).bind fun offset hoffset => always_pure ?_
    dsimp only
    refine ⟨by omega, Nat.mod_lt _ (by omega), ?_⟩
    rcases Nat.lt_or_ge (first + (1 + offset)) members.length with hlt | hge
    · rw [Nat.mod_eq_of_lt hlt]
      omega
    · rw [Nat.mod_eq_sub_mod hge, Nat.mod_eq_of_lt (by omega)]
      omega
  · next hne => exact always_pure ⟨by omega, by omega, fun heq => hne heq.symm⟩

/-- **Every pair of parents has its child**: nobody is picked who is not there. -/
theorem always_makeChild_length {members : List Individual} (h : 2 ≤ members.length) :
    Always (fun children => children.length = 1) (makeChild s (parentWeights members) members) := by
  refine (always_pickParents h).bind fun ⟨i, j⟩ ⟨hi, hj, _⟩ => ?_
  dsimp only at hi hj ⊢
  rw [List.getElem?_eq_getElem hi, List.getElem?_eq_getElem hj]
  refine always_bind fun child => always_bind fun chance => ?_
  split
  · exact always_bind fun mutant => always_pure rfl
  · exact always_pure rfl

/-- The pool has its child, if two are in it. -/
theorem always_poolChildren_length {pool : List Individual} (h : 2 ≤ pool.length) :
    Always (fun children => children.length = 1) (poolChildren pool) := by
  unfold poolChildren
  rw [if_neg (by omega)]
  refine (always_sample h).bind fun picks hpicks => ?_
  obtain ⟨i, j, rfl⟩ := List.length_eq_two.mp hpicks.length_eq
  have hi : pool[[i, j].getD 0 0]? = some _ := List.getElem?_eq_getElem (hpicks.lt i (by simp))
  have hj : pool[[i, j].getD 1 0]? = some _ := List.getElem?_eq_getElem (hpicks.lt j (by simp))
  rw [hi, hj]
  exact always_bind fun child => always_pure rfl

/-! ## The course -/

/-- The placements that are evaluated for a first population. -/
def firstCandidates (s : Settings) (n : ℕ) (g : Generator) : List (List ℕ) :=
  List.range n :: (Draw.times (Draw.permutation n) (s.populationSize - 1) g).1

/-- **The course of a search**: what has been evaluated and reported, and the state reached, after
the first population and after every generation. -/
inductive Course (s : Settings) (fitness : List ℕ → ℕ) (n : ℕ) :
    List (List ℕ) → List Event → State → Prop
  | first (g : Generator) : Course s fitness n (firstCandidates s n g) [] (populate s fitness n g)
  | next {history : List (List ℕ)} {events : List Event} {state : State}
      (before : Course s fitness n history events state) :
      Course s fitness n (history ++ state.candidates s) (events ++ [(step s fitness state).2])
        (step s fitness state).1

/-- One report for each generation. -/
def reports (costs : List ℕ) : List Event := costs.zipIdx.map fun (c, i) => .generation i c

/-- One more report. -/
theorem reports_concat (costs : List ℕ) (c : ℕ) :
    reports (costs ++ [c]) = reports costs ++ [.generation costs.length c] := by
  simp [reports, List.zipIdx_append]

/-- **What holds of a search** on `n` qubits that has evaluated `history` and made the reports
`events`. -/
structure State.Holds (s : Settings) (fitness : List ℕ → ℕ) (n : ℕ) (history : List (List ℕ))
    (events : List Event) (state : State) : Prop where
  /-- Population and pool are made of placements, and the population is not empty. -/
  sound : state.Sound n
  /-- The population is strictly ascending, so it has no repetitions. -/
  ranked : Ranked fitness state.population
  population_length_le : state.population.length ≤ s.populationSize
  population_mem : ∀ a ∈ state.population, a.perm ∈ history
  pool_length_le : state.pool.length ≤ s.poolSize
  pool_evaluated : ∀ a ∈ state.pool, a = evaluate fitness a.perm
  /-- The best member is the least of all that was evaluated. -/
  best : ∃ b, state.best? = some b ∧
    IsLeast {key | ∃ p ∈ history, key = toLex (fitness p, p)} (toLex (b.fitness, b.perm))
  identity_mem : List.range n ∈ history
  /-- The reported costs go down from the identity's to that of the best member. -/
  reported : ∃ costs, events = reports costs ∧ costs.length = state.generation ∧
    ∀ b ∈ state.best?, Declines (fitness (List.range n)) costs b.fitness ∧
      ∀ c ∈ costs.getLast?, c = b.fitness

/-- **The first of a ranking is the least of all that was evaluated**, if it has nothing else, and
for all of it something as good. -/
theorem Ranked.isLeast_head {members : List Individual} (h : Ranked fitness members)
    (hne : members ≠ []) {history : List (List ℕ)} (hmem : ∀ a ∈ members, a.perm ∈ history)
    (hlow : ∀ p ∈ history, ∃ a ∈ members, a.key ≤ toLex (fitness p, p)) :
    ∃ b, members.head? = some b ∧
      IsLeast {key | ∃ p ∈ history, key = toLex (fitness p, p)} (toLex (b.fitness, b.perm)) := by
  obtain ⟨b, hhead, hle⟩ := h.exists_head hne
  have hb := List.mem_of_head? hhead
  refine ⟨b, hhead, ⟨b.perm, hmem b hb, congrArg Individual.key (h.evaluated b hb)⟩, ?_⟩
  rintro _ ⟨p, hp, rfl⟩
  obtain ⟨a, ha, hap⟩ := hlow p hp
  exact (hle a ha).trans hap

/-- **A first population** is made of the placements evaluated for it. -/
theorem holds_populate (hsize : 0 < s.populationSize) (fitness : List ℕ → ℕ) (n : ℕ)
    (g : Generator) :
    (populate s fitness n g).Holds s fitness n (firstCandidates s n g) [] := by
  have hsound := sound_populate s fitness n g
  have hranked := (leads_populate s fitness n g).ranked
  have hmem : ∀ a, a ∈ (populate s fitness n g).population ↔
      ∃ p ∈ firstCandidates s n g, evaluate fitness p = a := by
    intro a
    refine (mem_enrol _ _).trans ?_
    rw [← List.mem_map, or_iff_right List.not_mem_nil]
    rfl
  have hpool : ∀ a ∈ (populate s fitness n g).pool, a ∈ (populate s fitness n g).population :=
    fun a ha => List.mem_reverse.mp (List.mem_of_mem_take ha)
  have hperm : ∀ a ∈ (populate s fitness n g).population, a.perm ∈ firstCandidates s n g := by
    intro a ha
    obtain ⟨p, hp, rfl⟩ := (hmem a).mp ha
    exact hp
  have hleast := hranked.isLeast_head hsound.nonempty hperm fun p hp =>
    ⟨evaluate fitness p, (hmem _).mpr ⟨p, hp, rfl⟩, le_rfl⟩
  refine ⟨hsound, hranked, ?_, hperm, List.length_take_le _ _,
    fun a ha => hranked.evaluated a (hpool a ha), hleast, List.mem_cons_self,
    [], rfl, rfl, ?_⟩
  · have henrol := length_enrol_le [] ((firstCandidates s n g).map (evaluate fitness))
    have hlength := always_times_length (Draw.permutation n) (s.populationSize - 1) g
    rw [List.length_map, List.length_nil, firstCandidates, List.length_cons, hlength] at henrol
    exact henrol.trans (by omega)
  · intro b hb
    obtain ⟨_, hbest, hle⟩ := (leads_populate s fitness n g).best
    rw [Option.some.inj (hb.symm.trans hbest)]
    exact ⟨declines_nil hle, nofun⟩

/-- **A generation** evaluates its candidates, and the best of all so far is first again. -/
theorem holds_step (hsize : 0 < s.populationSize) {history : List (List ℕ)} {events : List Event}
    {state : State} (h : state.Holds s fitness n history events) :
    (step s fitness state).1.Holds s fitness n (history ++ state.candidates s)
      (events ++ [(step s fitness state).2]) := by
  have hstep := step_succeeds s fitness state
  have hsound := sound_step hsize fitness h.sound
  have hranked : Ranked fitness (state.grown s fitness) := h.ranked.enrol _
  have hperm : ∀ a ∈ state.grown s fitness, a.perm ∈ history ++ state.candidates s := by
    intro a ha
    rcases mem_grown.mp ha with ha | ⟨p, hp, rfl⟩
    · exact List.mem_append_left _ (h.population_mem a ha)
    · exact List.mem_append_right _ hp
  obtain ⟨old, hold, hleast⟩ := h.best
  have holdmem : old ∈ state.grown s fitness := mem_grown.mpr (.inl (List.mem_of_head? hold))
  -- the best member stands for everything evaluated before
  have hlow : ∀ p ∈ history ++ state.candidates s,
      ∃ a ∈ state.grown s fitness, a.key ≤ toLex (fitness p, p) := by
    intro p hp
    rcases List.mem_append.mp hp with hp | hp
    · exact ⟨old, holdmem, hleast.2 ⟨p, hp, rfl⟩⟩
    · exact ⟨evaluate fitness p, mem_grown.mpr (.inr ⟨p, hp, rfl⟩), le_rfl⟩
  obtain ⟨b, hhead, hleast'⟩ := hranked.isLeast_head (List.ne_nil_of_mem holdmem) hperm hlow
  have hbest : (step s fitness state).1.best? = some b := by
    rw [State.best?, hstep.population_eq, List.head?_take, if_neg (by omega), hhead]
  obtain ⟨costs, hevents, hlength, hdeclines⟩ := h.reported
  have hle : b.fitness ≤ old.fitness := fitness_le_of_key_le (hleast'.2
    ⟨old.perm, hperm old holdmem, congrArg Individual.key (hranked.evaluated old holdmem)⟩)
  refine ⟨hsound, hstep.population_eq ▸ hranked.take _, ?_, ?_, hstep.pool_length_le, ?_,
    ⟨b, hbest, hleast'⟩, List.mem_append_left _ h.identity_mem, costs ++ [b.fitness], ?_, ?_, ?_⟩
  · rw [hstep.population_eq]
    exact List.length_take_le _ _
  · rw [hstep.population_eq]
    exact fun a ha => hperm a (List.mem_of_mem_take ha)
  · intro a ha
    rcases List.mem_append.mp (hstep.pool_subset ha) with ha | ha
    · exact h.pool_evaluated a ha
    · exact hranked.evaluated a ha
  · rw [reports_concat, ← hevents, hlength, hstep.event_eq, hbest]
    rfl
  · rw [List.length_append, hlength, hstep.generation_eq]
    rfl
  · intro b' hb'
    rw [Option.some.inj (hb'.symm.trans hbest)]
    refine ⟨(hdeclines old hold).1.concat hle, ?_⟩
    intro c hc
    rw [List.getLast?_concat] at hc
    exact (Option.some.inj hc).symm

/-- **What holds along the course of a search.** -/
theorem Course.holds (hsize : 0 < s.populationSize) {history : List (List ℕ)} {events : List Event}
    {state : State} (h : Course s fitness n history events state) :
    state.Holds s fitness n history events := by
  induction h with
  | first g => exact holds_populate hsize fitness n g
  | next _ ih => exact holds_step hsize ih

/-! ## Nothing else is evaluated -/

/-- Costs that agree on some placements evaluate them alike. -/
theorem map_evaluate_congr {fitness' : List ℕ → ℕ} {perms : List (List ℕ)}
    (h : ∀ p ∈ perms, fitness' p = fitness p) :
    perms.map (evaluate fitness') = perms.map (evaluate fitness) :=
  List.map_congr_left fun p hp => congrArg (Individual.mk · p) (h p hp)

/-- A first population depends on the costs of its candidates only. -/
theorem populate_congr {fitness' : List ℕ → ℕ} {g : Generator}
    (h : ∀ p ∈ firstCandidates s n g, fitness' p = fitness p) :
    populate s fitness' n g = populate s fitness n g := by
  have hmap := map_evaluate_congr h
  unfold firstCandidates at hmap
  unfold populate
  rcases hdrawn : Draw.times (Draw.permutation n) (s.populationSize - 1) g with ⟨others, g'⟩
  rw [hdrawn] at hmap
  dsimp only
  rw [hmap]

/-- A generation depends on the costs of its candidates only. -/
theorem step_congr {fitness' : List ℕ → ℕ} {state : State}
    (h : ∀ p ∈ state.candidates s, fitness' p = fitness p) :
    step s fitness' state = step s fitness state := by
  have hmap := map_evaluate_congr h
  unfold State.candidates at hmap
  unfold step
  rcases hdrawn : offspring s state.population state.pool state.generator with ⟨children, g⟩
  rw [hdrawn] at hmap
  dsimp only
  rw [hmap]

/-- **The course depends on the costs of what was evaluated only.** -/
theorem Course.congr {fitness' : List ℕ → ℕ} {history : List (List ℕ)} {events : List Event}
    {state : State} (h : Course s fitness n history events state)
    (heq : ∀ p ∈ history, fitness' p = fitness p) : Course s fitness' n history events state := by
  induction h with
  | first g =>
    rw [← populate_congr heq]
    exact .first g
  | next _ ih =>
    rw [← step_congr fun p hp => heq p (List.mem_append_right _ hp)]
    exact .next (ih fun p hp => heq p (List.mem_append_left _ hp))

/-! ## Searches -/

/-- **Several generations** continue the course. -/
theorem Course.evolve {history : List (List ℕ)} {events : List Event} {state : State}
    (h : Course s fitness n history events state) (k : ℕ) :
    ∃ later, Course s fitness n (history ++ later) (events ++ (evolve s fitness k state).2)
        (evolve s fitness k state).1 ∧
      (Genetic.evolve s fitness k state).1.generation = state.generation + k := by
  induction k generalizing history events state with
  | zero =>
    refine ⟨[], ?_, rfl⟩
    rw [List.append_nil]
    exact (List.append_nil events).symm ▸ h
  | succ k ih =>
    obtain ⟨later, hcourse, hgeneration⟩ := ih h.next
    refine ⟨state.candidates s ++ later, ?_, ?_⟩
    · rw [List.append_assoc, List.append_assoc] at hcourse
      exact hcourse
    · refine hgeneration.trans ?_
      rw [(step_succeeds s fitness state).generation_eq]
      omega

/-- **A continued search** returns the placement of the best member. -/
theorem Course.exists_continue (hsize : 0 < s.populationSize) {history : List (List ℕ)}
    {events : List Event} {state : State} (h : Course s fitness n history events state)
    (generations : ℕ) :
    ∃ later final more p, continue? s fitness generations state = (final, more, some p) ∧
      Course s fitness n (history ++ later) (events ++ more) final ∧
      final.generation = state.generation + generations ∧
      IsPermutation p n ∧ final.best? = some (evaluate fitness p) := by
  obtain ⟨later, hcourse, hgeneration⟩ := h.evolve generations
  have hholds := hcourse.holds hsize
  obtain ⟨b, hbest, _⟩ := hholds.best
  have hmem := List.mem_of_head? hbest
  refine ⟨later, _, _, b.perm, ?_, hcourse, hgeneration, hholds.sound.population b hmem, ?_⟩
  · have hempty := List.isEmpty_eq_false_iff.mpr (h.holds hsize).sound.nonempty
    unfold continue?
    simp only [hempty, Bool.false_eq_true, if_false, hbest, Option.map_some]
  · rw [hbest, ← hholds.ranked.evaluated b hmem]

/-- **The invariants of a genetic search**, for every cost function, every number of qubits and
generations, every population of at least one and every draw. A fresh search and every search
continued from one follow a course. Along it `State.Holds`, and nothing outside its history has been
looked at. What they return is the placement of the best member. A fresh search is carried out
whenever its qubits can be held, and every pair of parents has its child. -/
theorem search_invariant (hsize : 1 ≤ s.populationSize) (fitness : List ℕ → ℕ) (n : ℕ) :
    (∀ history events state, Course s fitness n history events state →
      state.Holds s fitness n history events ∧
      ∀ fitness', (∀ p ∈ history, fitness' p = fitness p) →
        Course s fitness' n history events state) ∧
    (∀ generations state, ∃ history final events p,
      find s fitness n generations state = (final, events, p) ∧
      (n < addressLimit → find? s fitness n generations state = (final, events, .ok p)) ∧
      Course s fitness n history events final ∧ final.generation = generations ∧
      IsPermutation p n ∧ final.best? = some (evaluate fitness p)) ∧
    (∀ history events state generations, Course s fitness n history events state →
      ∃ later final more p, continue? s fitness generations state = (final, more, some p) ∧
        Course s fitness n (history ++ later) (events ++ more) final ∧
        final.generation = state.generation + generations ∧
        IsPermutation p n ∧ final.best? = some (evaluate fitness p)) ∧
    ∀ members : List Individual, 2 ≤ members.length →
      Always (fun children => children.length = 1) (makeChild s (parentWeights members) members) ∧
      Always (fun children => children.length = 1) (poolChildren members) := by
  refine ⟨fun history events state h => ⟨h.holds hsize, fun fitness' => h.congr⟩, ?_,
    fun history events state generations h => h.exists_continue hsize generations,
    fun members h => ⟨always_makeChild_length h, always_poolChildren_length h⟩⟩
  intro generations state
  obtain ⟨later, final, events, p, heq, hcourse, hgeneration, hp, hbest⟩ :=
    (Course.first state.generator : Course s fitness n _ _ _).exists_continue hsize generations
  have hfind : find s fitness n generations state = (final, events, p) := by
    unfold find
    rw [heq]
    rfl
  refine ⟨_, final, events, p, hfind, ?_, hcourse, hgeneration.trans (Nat.zero_add _), hp, hbest⟩
  intro hroom
  unfold find?
  rw [requireRoom_eq_ok hroom, hfind]

/-- Two members on three qubits, where a placement costs less the larger its first gene is. The
words drawn are all zero, so the second member is the placement `[1, 2, 0]`, and it is found. -/
theorem search_invariant_three :
    let s : Settings := { Settings.default with populationSize := 2 }
    let fitness : List ℕ → ℕ := fun p => 3 - p.headD 0
    let start := State.start ⟨Dice.ofWords, fun _ => [0], 0, []⟩
    1 ≤ s.populationSize ∧ ∃ history final,
      find s fitness 3 0 start = (final, [], [1, 2, 0]) ∧ final.best? = some ⟨2, [1, 2, 0]⟩ ∧
      Course s fitness 3 history [] final ∧ final.Holds s fitness 3 history [] := by
  intro s fitness start
  have hsize : 1 ≤ s.populationSize := by decide
  obtain ⟨hholds, hfind, _⟩ := search_invariant hsize fitness 3
  obtain ⟨history, final, events, p, heq, _, hcourse, _, _, hbest⟩ := hfind 0 start
  have hresult : (find s fitness 3 0 start).2 = ([], [1, 2, 0]) := by decide +kernel
  rw [heq, Prod.mk.injEq] at hresult
  obtain ⟨rfl, rfl⟩ := hresult
  exact ⟨hsize, history, final, heq, hbest, hcourse, (hholds history [] final hcourse).1⟩

end CnotSynthesis.Genetic
