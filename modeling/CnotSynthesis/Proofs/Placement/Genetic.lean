import CnotSynthesis.Placement.Genetic
import CnotSynthesis.Proofs.Placement.Operators

/-! # Genetic searches find placements

* **`Genetic.State.Sound n`** — a population that is not empty, of placements of `n` qubits.
* **`Genetic.step_succeeds`** — all that a generation does to a search.
* **`Genetic.sound_step`** — a generation keeps it, whatever is drawn and whatever things cost;
  **`Genetic.sound_evolve`** for many generations.
* **`Genetic.isPermutation_find`** — a fresh search with room for a population finds a placement. -/

namespace CnotSynthesis.Genetic

open Placement Draw

/-- All members are placements of `n` qubits. -/
def Placements (n : ℕ) (members : List Individual) : Prop := ∀ a ∈ members, IsPermutation a.perm n

/-- **A search under way** on `n` qubits. -/
structure State.Sound (n : ℕ) (s : State) : Prop where
  population : Placements n s.population
  pool : Placements n s.pool
  nonempty : s.population ≠ []

variable {n : ℕ} {s : Settings}

/-! ## Children -/

/-- The child of the pool is a placement. -/
theorem always_poolChildren {pool : List Individual} (h : Placements n pool) :
    Always (fun children => ∀ c ∈ children, IsPermutation c n) (poolChildren pool) := by
  unfold poolChildren
  split
  · exact always_pure (by simp)
  · refine always_bind fun picks => ?_
    split
    · next a b ha hb =>
      refine (always_crossSlice (h a (List.mem_of_getElem? ha))
        (h b (List.mem_of_getElem? hb))).bind
        fun child hchild => always_pure ?_
      exact fun c hc => List.mem_singleton.mp hc ▸ hchild
    · exact always_pure (by simp)

/-- The child of two members is a placement. -/
theorem always_makeChild {members : List Individual} (h : Placements n members)
    (weights : List Float) :
    Always (fun children => ∀ c ∈ children, IsPermutation c n) (makeChild s weights members) := by
  unfold makeChild
  refine always_bind fun ⟨i, j⟩ => ?_
  dsimp only
  split
  · next a b ha hb =>
    refine (always_crossSlice (h a (List.mem_of_getElem? ha)) (h b (List.mem_of_getElem? hb))).bind
      fun child hchild => always_bind fun chance => ?_
    split
    · refine (always_mutateSwap hchild).bind fun mutant hmutant => always_pure ?_
      exact fun c hc => List.mem_singleton.mp hc ▸ hmutant
    · exact always_pure fun c hc => List.mem_singleton.mp hc ▸ hchild
  · exact always_pure (by simp)

/-- The children of several pairs are placements. -/
theorem always_memberChildren {members : List Individual} (h : Placements n members)
    (weights : List Float) (k : ℕ) :
    Always (fun children => ∀ c ∈ children, IsPermutation c n)
      (memberChildren s weights members k) := by
  induction k with
  | zero => exact always_pure (by simp)
  | succ k ih =>
    refine always_bind fun chance => ?_
    split
    · exact ih
    · refine (always_makeChild h weights).bind fun child hchild => ih.bind fun rest hrest =>
        always_pure ?_
      intro c hc
      rcases List.mem_append.mp hc with hc | hc
      · exact hchild c hc
      · exact hrest c hc

/-- **Children of placements are placements.** -/
theorem always_offspring {population pool : List Individual} (hpopulation : Placements n population)
    (hpool : Placements n pool) :
    Always (fun children => ∀ c ∈ children, IsPermutation c n) (offspring s population pool) := by
  refine (always_poolChildren hpool).bind fun fromPool hfromPool => ?_
  split
  · exact always_pure hfromPool
  · refine (always_memberChildren hpopulation _ _).bind fun children hchildren => always_pure ?_
    intro c hc
    rcases List.mem_append.mp hc with hc | hc
    · exact hfromPool c hc
    · exact hchildren c hc

/-! ## Generations -/

/-- The members of a population that took in new ones. -/
theorem mem_enrol {a : Individual} (new : List Individual) :
    ∀ population, a ∈ enrol population new ↔ a ∈ population ∨ a ∈ new := by
  induction new with
  | nil => simp [enrol]
  | cons b new ih =>
    intro population
    have hstep : enrol population (b :: new) =
        enrol (insertDistinct Individual.before b population) new := rfl
    rw [hstep, ih, mem_insertDistinct, List.mem_cons]
    tauto

/-- Evaluated placements are placements. -/
theorem placements_evaluate (fitness : List ℕ → ℕ) {perms : List (List ℕ)}
    (h : ∀ p ∈ perms, IsPermutation p n) : Placements n (perms.map (evaluate fitness)) := by
  intro a ha
  obtain ⟨p, hp, rfl⟩ := List.mem_map.mp ha
  exact h p hp

/-- A pool is thinned to the given size. -/
theorem always_thinPool (keep : ℕ) (pool : List Individual) :
    Always (fun kept => kept.length ≤ keep ∧ kept ⊆ pool) (thinPool keep pool) := by
  unfold thinPool
  split
  · next hlt =>
    refine (always_sample hlt.le).bind fun picks hpicks => always_pure ⟨?_, ?_⟩
    · exact (List.length_filterMap_le _ picks).trans_eq hpicks.length_eq
    · intro a ha
      obtain ⟨i, _, hi⟩ := List.mem_filterMap.mp ha
      exact List.mem_of_getElem? hi
  · next hle => exact always_pure ⟨Nat.not_lt.mp hle, List.Subset.refl pool⟩

/-- The placements that a generation evaluates. -/
def State.candidates (s : Settings) (state : State) : List (List ℕ) :=
  (offspring s state.population state.pool state.generator).1

/-- The population and the candidates of a generation, before any of them is dropped. -/
def State.grown (s : Settings) (fitness : List ℕ → ℕ) (state : State) : List Individual :=
  enrol state.population ((state.candidates s).map (evaluate fitness))

/-- **What a generation does**: the first members of the grown population stay, the pool is made of
what was in it and what was dropped, and the report names the cost of the best member. -/
structure Succeeds (s : Settings) (fitness : List ℕ → ℕ) (state next : State) (event : Event) :
    Prop where
  population_eq : next.population = (state.grown s fitness).take s.populationSize
  pool_length_le : next.pool.length ≤ s.poolSize
  pool_subset : next.pool ⊆ state.pool ++ state.grown s fitness
  generation_eq : next.generation = state.generation + 1
  event_eq : event =
    .generation state.generation ((next.best?.map (·.fitness)).getD infeasible)

/-- A generation succeeds the state before it. -/
theorem step_succeeds (s : Settings) (fitness : List ℕ → ℕ) (state : State) :
    Succeeds s fitness state (step s fitness state).1 (step s fitness state).2 := by
  have hthin := always_thinPool s.poolSize
    (state.pool ++ ((state.grown s fitness).drop s.populationSize).reverse)
    (offspring s state.population state.pool state.generator).2
  refine ⟨rfl, hthin.1, ?_, rfl, rfl⟩
  intro a ha
  rcases List.mem_append.mp (hthin.2 ha) with ha | ha
  · exact List.mem_append_left _ ha
  · exact List.mem_append_right _ (List.mem_of_mem_drop (List.mem_reverse.mp ha))

/-- A population before it is cut: the members and the candidates. -/
theorem mem_grown {fitness : List ℕ → ℕ} {state : State} {a : Individual} :
    a ∈ state.grown s fitness ↔
      a ∈ state.population ∨ ∃ p ∈ state.candidates s, evaluate fitness p = a :=
  (mem_enrol _ _).trans (or_congr_right List.mem_map)

/-- The candidates of a sound search are placements. -/
theorem State.Sound.isPermutation_candidates {state : State} (h : state.Sound n) :
    ∀ p ∈ state.candidates s, IsPermutation p n :=
  always_offspring h.population h.pool state.generator

/-- **One generation** keeps a search sound, if the population may have members. -/
theorem sound_step (hsize : 0 < s.populationSize) (fitness : List ℕ → ℕ) {state : State}
    (h : state.Sound n) : (step s fitness state).1.Sound n := by
  have hstep := step_succeeds s fitness state
  have hgrown : Placements n (state.grown s fitness) := by
    intro a ha
    rcases mem_grown.mp ha with ha | ⟨p, hp, rfl⟩
    · exact h.population a ha
    · exact h.isPermutation_candidates p hp
  refine ⟨?_, ?_, ?_⟩
  · rw [hstep.population_eq]
    exact fun a ha => hgrown a (List.mem_of_mem_take ha)
  · intro a ha
    rcases List.mem_append.mp (hstep.pool_subset ha) with ha | ha
    · exact h.pool a ha
    · exact hgrown a ha
  · -- the old members are still there, and the first of all is kept
    obtain ⟨a, ha⟩ := List.exists_mem_of_ne_nil _ h.nonempty
    have hne : state.grown s fitness ≠ [] := List.ne_nil_of_mem (mem_grown.mpr (.inl ha))
    rw [hstep.population_eq, Ne, List.take_eq_nil_iff]
    rintro (hzero | hnil)
    · omega
    · exact hne hnil

/-- Generations keep a search sound. -/
theorem sound_evolve (hsize : 0 < s.populationSize) (fitness : List ℕ → ℕ) (k : ℕ) :
    ∀ {state : State}, state.Sound n → (evolve s fitness k state).1.Sound n := by
  induction k with
  | zero => exact fun h => h
  | succ k ih => exact fun h => ih (sound_step hsize fitness h)

/-- **A first population** has the identity in it. -/
theorem sound_populate (s : Settings) (fitness : List ℕ → ℕ) (n : ℕ) (g : Generator) :
    (populate s fitness n g).Sound n := by
  have hothers := always_times (always_permutation n) (s.populationSize - 1) g
  unfold populate
  rcases htimes : Draw.times (Draw.permutation n) (s.populationSize - 1) g with ⟨others, g'⟩
  rw [htimes] at hothers
  dsimp only
  have hall : ∀ p ∈ List.range n :: others, IsPermutation p n := by
    intro p hp
    rcases List.mem_cons.mp hp with rfl | hp
    · exact isPermutation_range n
    · exact hothers p hp
  have hpopulation : Placements n
      (enrol [] ((List.range n :: others).map (evaluate fitness))) := by
    intro a ha
    rcases (mem_enrol _ _).mp ha with ha | ha
    · cases ha
    · exact placements_evaluate fitness hall a ha
  refine ⟨hpopulation, ?_, ?_⟩
  · exact fun a ha => hpopulation a (List.mem_reverse.mp (List.mem_of_mem_take ha))
  · exact List.ne_nil_of_mem ((mem_enrol _ _).mpr (.inr List.mem_cons_self))

/-- **A fresh search** ends with the best member of its last population. -/
theorem find_eq (s : Settings) (fitness : List ℕ → ℕ) (n generations : ℕ) (state : State)
    {a : Individual}
    (hbest : (evolve s fitness generations (populate s fitness n state.generator)).1.best? =
      some a) :
    find s fitness n generations state =
      ((evolve s fitness generations (populate s fitness n state.generator)).1,
        (evolve s fitness generations (populate s fitness n state.generator)).2, a.perm) := by
  -- the search goes on, because the first population has members
  have hempty : (populate s fitness n state.generator).population.isEmpty = false := by
    rw [Bool.eq_false_iff, Ne, List.isEmpty_iff]
    exact (sound_populate s fitness n state.generator).nonempty
  unfold find continue?
  simp only [hempty, Bool.false_eq_true, if_false, hbest, Option.map_some, Option.getD_some]

/-- **A fresh search finds a placement**, whatever is drawn and whatever things cost. -/
theorem isPermutation_find (hsize : 0 < s.populationSize) (fitness : List ℕ → ℕ)
    (n generations : ℕ) (state : State) :
    IsPermutation (find s fitness n generations state).2.2 n := by
  have hsound := sound_evolve hsize fitness generations
    (sound_populate s fitness n state.generator)
  obtain ⟨a, rest, heq⟩ := List.exists_cons_of_ne_nil hsound.nonempty
  have hbest : (evolve s fitness generations (populate s fitness n state.generator)).1.best? =
      some a := by
    unfold State.best?
    rw [heq, List.head?_cons]
  rw [find_eq s fitness n generations state hbest]
  refine hsound.population a ?_
  rw [heq]
  exact List.mem_cons_self

end CnotSynthesis.Genetic
