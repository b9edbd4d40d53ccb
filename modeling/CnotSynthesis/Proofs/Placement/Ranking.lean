import CnotSynthesis.Proofs.Placement.Genetic
import CnotSynthesis.Proofs.Placement.Swarm
import CnotSynthesis.Proofs.Sorting

/-! # Searches keep the best they have met

Both searches try the identity at the start and never forget the best placement so far. So what
they return costs at most as much as the identity, and at the cost that they have noted for it.

* **`Declines start costs last`** — costs that never increase.
* **`Genetic.State.Leads fitness bound`** — a population in ascending order, with costs as `fitness`
  says, whose first member costs at most `bound`. A generation keeps it (**`Genetic.leads_step`**).
* **`Genetic.find_best`** — the result of a genetic search.
* **`Swarm.move_best`** — what a particle has noted after a move; **`Swarm.noted_advance`** — what
  the swarm has noted after all have moved; **`Swarm.search_best`** — after many steps.
* **`Swarm.find_best`** — the result of a swarm search; **`Swarm.find_holds`** — it is not a
  placement that ties with the identity, so it has every property that the identity and all cheaper
  placements have. -/

namespace CnotSynthesis

/-- **Costs that never increase**, from `start` on and down to `last`. -/
def Declines (start : ℕ) (costs : List ℕ) (last : ℕ) : Prop :=
  (start :: (costs ++ [last])).Pairwise (· ≥ ·)

/-- Without reports only the ends are compared. -/
theorem declines_nil {start last : ℕ} (h : last ≤ start) : Declines start [] last :=
  List.pairwise_pair.mpr h

/-- One more cost, which is now the last. -/
theorem Declines.concat {start last new : ℕ} {costs : List ℕ} (h : Declines start costs last)
    (hnew : new ≤ last) : Declines start (costs ++ [new]) new := by
  unfold Declines at h ⊢
  rw [← List.cons_append, List.pairwise_append] at h ⊢
  obtain ⟨hcosts, _, hlast⟩ := h
  have hle : ∀ c ∈ start :: costs, ∀ d ∈ [new], c ≥ d := by
    intro c hc d hd
    rw [List.mem_singleton.mp hd]
    exact hnew.trans (hlast c hc last (List.mem_singleton_self last))
  rw [← List.cons_append]
  refine ⟨List.pairwise_append.mpr ⟨hcosts, List.pairwise_singleton _ _, hle⟩,
    List.pairwise_singleton _ _, ?_⟩
  intro c hc d hd
  rcases List.mem_append.mp hc with hc | hc
  · exact hle c hc d hd
  · rw [List.mem_singleton.mp hc, List.mem_singleton.mp hd]

/-! ## Genetic searches -/

namespace Genetic

variable {s : Settings} {fitness : List ℕ → ℕ} {n bound : ℕ}

/-- Individuals are ordered. -/
theorem orders_before : Orders Individual.before := by
  have hinjective : Function.Injective fun a : Individual => (a.fitness, a.perm) := by
    rintro ⟨_, _⟩ ⟨_, _⟩ h
    cases h
    rfl
  exact (orders_lex orders_lt orders_listBefore).comap hinjective

/-- What individuals are ranked by: the cost, then the placement in dictionary order. -/
def Individual.key (a : Individual) : ℕ ×ₗ List ℕ := toLex (a.fitness, a.perm)

/-- The order of individuals is that of their keys. -/
theorem before_iff {a b : Individual} : a.before b = true ↔ a.key < b.key := by
  unfold Individual.before Individual.key
  rw [Prod.Lex.toLex_lt_toLex, Bool.or_eq_true, Bool.and_eq_true, decide_eq_true_eq, beq_iff_eq,
    listBefore_iff]

/-- A smaller key is no higher cost. -/
theorem fitness_le_of_key_le {a b : Individual} (h : a.key ≤ b.key) : a.fitness ≤ b.fitness := by
  rcases Prod.Lex.toLex_le_toLex.mp h with hlt | ⟨heq, _⟩
  · exact hlt.le
  · exact heq.le

/-- **A ranking**: ascending, with the costs that `fitness` says. -/
structure Ranked (fitness : List ℕ → ℕ) (members : List Individual) : Prop where
  ascending : members.Pairwise (Individual.before · · = true)
  evaluated : ∀ a ∈ members, a = evaluate fitness a.perm

namespace Ranked

variable {members : List Individual}

/-- The first members of a ranking are ranked. -/
theorem take (h : Ranked fitness members) (k : ℕ) : Ranked fitness (members.take k) :=
  ⟨h.ascending.sublist (List.take_sublist k members),
    fun a ha => h.evaluated a (List.mem_of_mem_take ha)⟩

/-- Evaluated placements take their places in a ranking. -/
theorem enrol (h : Ranked fitness members) (perms : List (List ℕ)) :
    Ranked fitness (enrol members (perms.map (evaluate fitness))) := by
  induction perms generalizing members with
  | nil => exact h
  | cons p perms ih =>
    show Ranked fitness
      (Genetic.enrol (insertDistinct Individual.before (evaluate fitness p) members)
      (perms.map (evaluate fitness)))
    refine ih ⟨pairwise_insertDistinct orders_before h.ascending _, ?_⟩
    intro a ha
    rcases mem_insertDistinct.mp ha with rfl | ha
    · rfl
    · exact h.evaluated a ha

/-- **The first of a ranking** is the least. -/
theorem exists_head (h : Ranked fitness members) (hne : members ≠ []) :
    ∃ b, members.head? = some b ∧ ∀ a ∈ members, b.key ≤ a.key := by
  cases members with
  | nil => exact absurd rfl hne
  | cons b rest =>
    refine ⟨b, rfl, List.forall_mem_cons.mpr ⟨le_rfl, fun a ha => ?_⟩⟩
    exact (before_iff.mp ((List.pairwise_cons.mp h.ascending).1 a ha)).le

end Ranked

/-- **A search in the lead**: its population is ranked, and the first member costs at most
`bound`. -/
structure State.Leads (fitness : List ℕ → ℕ) (bound : ℕ) (state : State) : Prop where
  ranked : Ranked fitness state.population
  best : ∃ a, state.best? = some a ∧ a.fitness ≤ bound

/-- **A generation keeps the lead**: the best member stays unless a better one is born. -/
theorem leads_step (hsize : 0 < s.populationSize) {state : State}
    (h : state.Leads fitness bound) : (step s fitness state).1.Leads fitness bound := by
  obtain ⟨a, hbest, ha⟩ := h.best
  have hpopulation := (step_succeeds s fitness state).population_eq
  have hranked : Ranked fitness (state.grown s fitness) := h.ranked.enrol _
  have hmem : a ∈ state.grown s fitness := mem_grown.mpr (.inl (List.mem_of_head? hbest))
  obtain ⟨b, hhead, hle⟩ := hranked.exists_head (List.ne_nil_of_mem hmem)
  refine ⟨hpopulation ▸ hranked.take _, b, ?_, (fitness_le_of_key_le (hle a hmem)).trans ha⟩
  -- there is room for at least one member
  rw [State.best?, hpopulation, List.head?_take, if_neg (by omega), hhead]

/-- Generations keep the lead. -/
theorem leads_evolve (hsize : 0 < s.populationSize) (k : ℕ) :
    ∀ {state : State}, state.Leads fitness bound →
      (evolve s fitness k state).1.Leads fitness bound := by
  induction k with
  | zero => exact fun h => h
  | succ k ih => exact fun h => ih (leads_step hsize h)

/-- **A first population** costs at most as much as the identity. -/
theorem leads_populate (s : Settings) (fitness : List ℕ → ℕ) (n : ℕ) (g : Generator) :
    (populate s fitness n g).Leads fitness (fitness (List.range n)) := by
  unfold populate
  rcases Draw.times (Draw.permutation n) (s.populationSize - 1) g with ⟨others, g'⟩
  have hempty : Ranked fitness [] := ⟨List.Pairwise.nil, nofun⟩
  have hranked := hempty.enrol (List.range n :: others)
  have hmem : evaluate fitness (List.range n) ∈
      enrol [] ((List.range n :: others).map (evaluate fitness)) :=
    (mem_enrol _ _).mpr (.inr List.mem_cons_self)
  obtain ⟨b, hhead, hle⟩ := hranked.exists_head (List.ne_nil_of_mem hmem)
  exact ⟨hranked, b, hhead, fitness_le_of_key_le (hle _ hmem)⟩

/-- **A fresh search** returns a placement that costs what its best member costs, and at most as
much as the identity. -/
theorem find_best (hsize : 0 < s.populationSize) (fitness : List ℕ → ℕ) (n generations : ℕ)
    (state : State) :
    ∃ final events p, find s fitness n generations state = (final, events, p) ∧
      IsPermutation p n ∧ final.best? = some (evaluate fitness p) ∧
      fitness p ≤ fitness (List.range n) := by
  have hleads := leads_evolve hsize generations (leads_populate s fitness n state.generator)
  obtain ⟨a, hbest, hle⟩ := hleads.best
  have heval := hleads.ranked.evaluated a (List.mem_of_head? hbest)
  have hfind := find_eq s fitness n generations state hbest
  have hperm := isPermutation_find hsize fitness n generations state
  rw [hfind] at hperm
  rw [heval] at hbest hle
  exact ⟨_, _, a.perm, hfind, hperm, hbest, hle⟩

end Genetic

/-! ## Swarms -/

namespace Swarm

variable {σ : Type} {s : Settings} {step : List ℕ → Step σ} {n bound : ℕ}

/-- **A finding as told** by the step function. -/
structure Finding.Told (step : List ℕ → Step σ) (f : Finding σ) : Prop where
  solution_eq : f.solution = (step f.point).solution
  cost_eq : f.cost = (step f.point).cost

/-- **A particle that moves** notes where it was, unless it has noted something cheaper. -/
theorem move_best (s : Settings) (step : List ℕ → Step σ) (n : ℕ) (leader : List ℕ)
    (p : Particle σ) :
    ∃ f, (move s step n leader p).1.best = some f ∧ f.cost ≤ (step p.current).cost ∧
      (f.Told step ∨ p.best = some f) := by
  rcases move_cases s step n leader p with ⟨_, hbest, _⟩ | ⟨old, hold, hlt, hbest, _⟩
  · exact ⟨_, hbest, le_rfl, .inl ⟨rfl, rfl⟩⟩
  · exact ⟨old, hbest, hlt.le, .inr hold⟩

/-- The leader costs the least of what the particles have noted. -/
theorem leader?_le {particles : List (Particle σ)} {f : Finding σ}
    (h : leader? particles = some f) {p : Particle σ} (hp : p ∈ particles) {g : Finding σ}
    (hg : p.best = some g) : f.cost ≤ g.cost := by
  have hle : ∀ a b : Finding σ, decide (a.cost < b.cost) = true → a.cost ≤ b.cost := by
    simp only [decide_eq_true_eq]
    omega
  have hge : ∀ a b : Finding σ, decide (a.cost < b.cost) = false → b.cost ≤ a.cost := by
    simp only [decide_eq_false_iff_not]
    omega
  exact leastBy_le hle hge h g (List.mem_filterMap.mpr ⟨p, hp, hg⟩)

/-- **After the particles have moved** the swarm has noted something at most as dear as its leader
and as what it had noted before. -/
theorem advance_best {particles : List (Particle σ)} {new : Finding σ}
    (hnew : leader? particles = some new) (found : Option (Finding σ)) :
    ∃ f, advance found particles = some f ∧ f.cost ≤ new.cost ∧
      (∀ old ∈ found, f.cost ≤ old.cost) ∧ (f = new ∨ found = some f) := by
  unfold advance
  rw [hnew]
  cases found with
  | none => exact ⟨new, rfl, le_rfl, nofun, .inl rfl⟩
  | some old =>
    dsimp only
    split
    · next hlt =>
      refine ⟨new, rfl, le_rfl, ?_, .inl rfl⟩
      rintro _ ⟨⟩
      omega
    · next hge =>
      refine ⟨old, rfl, by omega, ?_, .inr rfl⟩
      rintro _ ⟨⟩
      exact le_rfl

/-- **What a swarm has noted** is what the step function told. -/
structure Noted (step : List ℕ → Step σ) (particles : List (Particle σ))
    (found : Option (Finding σ)) : Prop where
  particles : ∀ p ∈ particles, ∀ f ∈ p.best, f.Told step
  swarm : ∀ f ∈ found, f.Told step

/-- **One step of a swarm**: what it has noted afterwards costs at most what it had noted before,
and at most what the step function told any of the particles. -/
theorem noted_advance {particles : List (Particle σ)} {found : Option (Finding σ)}
    (hne : particles ≠ []) (h : Noted step particles found) (s : Settings) (n : ℕ)
    (leader : List ℕ) :
    let moved := (particles.map (move s step n leader)).map (·.1)
    ∃ f, advance found moved = some f ∧ Noted step moved (some f) ∧
      (∀ old ∈ found, f.cost ≤ old.cost) ∧ ∀ p ∈ particles, f.cost ≤ (step p.current).cost := by
  intro moved
  have hbest : ∀ p ∈ particles, ∃ f, (move s step n leader p).1.best = some f ∧
      f.cost ≤ (step p.current).cost ∧ f.Told step := by
    intro p hp
    obtain ⟨f, hf, hle, htold | hold⟩ := move_best s step n leader p
    · exact ⟨f, hf, hle, htold⟩
    · exact ⟨f, hf, hle, h.particles p hp f hold⟩
  have hmoved : ∀ p ∈ particles, (move s step n leader p).1 ∈ moved := fun p hp =>
    List.mem_map_of_mem (List.mem_map_of_mem hp)
  have htold : ∀ q ∈ moved, q.best.isSome = true ∧ ∀ f ∈ q.best, f.Told step := by
    intro q hq
    obtain ⟨_, hmove, rfl⟩ := List.mem_map.mp hq
    obtain ⟨p, hp, rfl⟩ := List.mem_map.mp hmove
    obtain ⟨f, hf, _, hft⟩ := hbest p hp
    rw [hf]
    refine ⟨rfl, ?_⟩
    rintro _ ⟨⟩
    exact hft
  obtain ⟨new, hnew⟩ := exists_leader? (by simpa [moved] using hne) fun q hq => (htold q hq).1
  obtain ⟨f, hadvance, hle, hold, hfrom⟩ := advance_best hnew found
  refine ⟨f, hadvance, ⟨fun q hq => (htold q hq).2, ?_⟩, hold, ?_⟩
  · rintro _ ⟨⟩
    rcases hfrom with rfl | hsame
    · obtain ⟨q, hq, hqf⟩ := List.mem_filterMap.mp (leastBy_mem hnew)
      exact (htold q hq).2 f hqf
    · exact h.swarm f hsame
  · intro p hp
    obtain ⟨g, hg, hgle, _⟩ := hbest p hp
    have hlead := leader?_le hnew (hmoved p hp) hg
    omega

/-- **Many steps**: what was noted stays below a bound that it once met, or that the first step of
some particle meets. -/
theorem search_best (k : ℕ) :
    ∀ (index : ℕ) (particles : List (Particle σ)) (found : Option (Finding σ)), particles ≠ [] →
      Noted step particles found →
      ((∃ f ∈ found, f.cost ≤ bound) ∨
        0 < k ∧ ∃ p ∈ particles, (step p.current).cost ≤ bound) →
      ∃ f, (search s step n k index particles found).1 = some f ∧ f.Told step ∧ f.cost ≤ bound := by
  induction k with
  | zero =>
    intro index particles found _ hnoted hbound
    obtain ⟨f, hf, hle⟩ := hbound.resolve_right fun h => Nat.lt_irrefl 0 h.1
    exact ⟨f, hf, hnoted.swarm f hf, hle⟩
  | succ k ih =>
    intro index particles found hne hnoted hbound
    obtain ⟨f, hadvance, hnoted', hold, hnew⟩ :=
      noted_advance hne hnoted s n ((found.map (·.point)).getD (List.range n))
    have hcost : f.cost ≤ bound := by
      rcases hbound with ⟨old, hmem, hle⟩ | ⟨_, p, hp, hle⟩
      · exact (hold old hmem).trans hle
      · exact (hnew p hp).trans hle
    unfold search
    dsimp only
    rw [hadvance]
    exact ih (index + 1) _ (some f) (by simpa using hne) hnoted' (.inl ⟨f, rfl, hcost⟩)

/-- At the start nothing is noted. -/
theorem noted_launch (source : ℕ → Generator) (seed n m : ℕ) :
    Noted step ((List.range m).map (launch source seed n)) none := by
  refine ⟨?_, nofun⟩
  intro p hp f hf
  obtain ⟨i, _, rfl⟩ := List.mem_map.mp hp
  unfold launch at hf
  dsimp only at hf
  split at hf <;> cases hf

/-- **The search returns what a step has told**, at a cost that is at most the one at the
identity. -/
theorem find_best (s : Settings) (source : ℕ → Generator) (seed : ℕ) (step : List ℕ → Step σ)
    (default : σ) (n steps : ℕ) :
    (find s source seed step default n steps).1.Told step ∧
      (find s source seed step default n steps).1.cost ≤ (step (List.range n)).cost := by
  have hfirst : (launch source seed n 0 : Particle σ) ∈
      (List.range (max s.swarmSize 1)).map (launch source seed n) :=
    List.mem_map_of_mem (List.mem_range.mpr (by omega))
  obtain ⟨f, hsearch, hf, hle⟩ := search_best (s := s) (n := n) (max steps 1) 0 _ none
    (List.ne_nil_of_mem hfirst) (noted_launch source seed n _)
    (.inr ⟨by omega, _, hfirst, le_rfl⟩)
  unfold find
  dsimp only
  rw [hsearch]
  exact ⟨hf, hle⟩

/-! ## Ties -/

/-- The first particle leads unless another one has found something cheaper. -/
theorem leader?_cons {p : Particle σ} {rest : List (Particle σ)} {a f : Finding σ}
    (hp : p.best = some a) (h : leader? (p :: rest) = some f) : f = a ∨ f.cost < a.cost := by
  unfold leader? at h
  rw [List.filterMap_cons_some hp] at h
  unfold leastBy at h
  split at h
  · exact .inl (Option.some.inj h).symm
  · split at h
    · next hlt =>
      rw [← Option.some.inj h]
      exact .inr (of_decide_eq_true hlt)
    · exact .inl (Option.some.inj h).symm

/-- What the swarm has noted is replaced by something cheaper only. -/
theorem advance_some {particles : List (Particle σ)} {f g : Finding σ}
    (h : advance (some f) particles = some g) : g = f ∨ g.cost < f.cost := by
  unfold advance at h
  cases hnew : leader? particles with
  | none =>
    rw [hnew] at h
    exact .inl (Option.some.inj h).symm
  | some new =>
    rw [hnew] at h
    dsimp only at h
    split at h
    · next hlt =>
      rw [← Option.some.inj h]
      exact .inr hlt
    · exact .inl (Option.some.inj h).symm

variable {P : σ → Prop}

/-- **Many steps** keep a property of what was noted, if everything cheaper than `bound` has it. -/
theorem search_holds (hlow : ∀ p, (step p).cost < bound → P (step p).solution) (k : ℕ) :
    ∀ (index : ℕ) (particles : List (Particle σ)) (f : Finding σ), particles ≠ [] →
      Noted step particles (some f) → P f.solution → f.cost ≤ bound →
      ∃ g, (search s step n k index particles (some f)).1 = some g ∧ P g.solution := by
  induction k with
  | zero => exact fun index particles f _ _ hf _ => ⟨f, rfl, hf⟩
  | succ k ih =>
    intro index particles f hne hnoted hf hcost
    obtain ⟨g, hadvance, hnoted', hold, _⟩ := noted_advance hne hnoted s n f.point
    have hg : P g.solution := by
      rcases advance_some hadvance with rfl | hlt
      · exact hf
      · obtain ⟨hsolution, hgcost⟩ := hnoted'.swarm g rfl
        rw [hsolution]
        exact hlow g.point (by omega)
    have hrest := ih (index + 1) _ g (by simpa using hne) hnoted' hg ((hold f rfl).trans hcost)
    unfold search
    dsimp only [Option.map_some, Option.getD_some]
    rw [hadvance]
    exact hrest

/-- **A property of the result**: the identity has it and costs at most `bound`, and everything
cheaper than `bound` has it. The identity is tried first, so nothing else at its cost takes its
place. -/
theorem find_holds (hfirst : P (step (List.range n)).solution)
    (hcost : (step (List.range n)).cost ≤ bound)
    (hlow : ∀ p, (step p).cost < bound → P (step p).solution) (source : ℕ → Generator) (seed : ℕ)
    (default : σ) (steps : ℕ) : P (find s source seed step default n steps).1.solution := by
  obtain ⟨k, hk⟩ : ∃ k, max steps 1 = k + 1 := ⟨max steps 1 - 1, by omega⟩
  obtain ⟨m, hm⟩ : ∃ m, max s.swarmSize 1 = m + 1 := ⟨max s.swarmSize 1 - 1, by omega⟩
  obtain ⟨g, hadvance, hnoted, _, hle⟩ :=
    noted_advance (by simp) (noted_launch source seed n (m + 1)) s n (List.range n)
  have hidentity : g.cost ≤ (step (List.range n)).cost :=
    hle (launch source seed n 0) (List.mem_map_of_mem (List.mem_range.mpr (Nat.succ_pos m)))
  have hg : P g.solution := by
    rw [List.range_succ_eq_map, List.map_cons, List.map_cons, List.map_cons] at hadvance
    rcases leader?_cons (a := ⟨List.range n, (step (List.range n)).solution,
      (step (List.range n)).cost⟩) rfl hadvance with rfl | hlt
    · exact hfirst
    · obtain ⟨hsolution, hgcost⟩ := hnoted.swarm g rfl
      have hlt : g.cost < (step (List.range n)).cost := hlt
      rw [hsolution]
      exact hlow g.point (by omega)
  obtain ⟨f, hsearch, hf⟩ := search_holds (s := s) (n := n) hlow k 1 _ g (by simp) hnoted hg
    (hidentity.trans hcost)
  unfold find
  dsimp only
  rw [hk, hm]
  unfold search
  dsimp only [Option.map_none, Option.getD_none]
  rw [hadvance, hsearch]
  exact hf

end Swarm

end CnotSynthesis
