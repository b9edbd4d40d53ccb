import CnotSynthesis.Proofs.Placement.Ranking

/-! # The course of a swarm

The rounds of a swarm search, with a record of where each particle has been.

* **`Swarm.Stage`** — the particles with their records, the finding of the swarm and what was
  reported, after some rounds; **`Swarm.stageAfter`** — after a given number.
* **`Swarm.IsBest step visited found`** — a finding is what the step function tells of one of the
  placements visited, at the least cost.
* **`Swarm.Stage.Holds`** — what is true of every stage: particles are on placements, their findings
  and that of the swarm are the best of what they visited, reported costs never increase.
  **`Swarm.holds_next`** proves it round by round.
* **`Swarm.stageAfter_congr`** — the stage depends on what the step function tells of the placements
  visited only.
* **`Swarm.find_invariant`** — a search returns the finding of the stage it ends with. -/

namespace CnotSynthesis.Swarm

variable {σ : Type} {s : Settings} {source : ℕ → Generator} {seed n : ℕ}
  {step : List ℕ → Step σ}

/-! ## Stages -/

/-- A particle and the placements at which it was evaluated, in order. -/
structure Track (σ : Type) where
  particle : Particle σ
  visited : List (List ℕ)

/-- The particle moves on from where it is. -/
def Track.move (s : Settings) (step : List ℕ → Step σ) (n : ℕ) (leader : List ℕ) (t : Track σ) :
    Track σ :=
  ⟨(Swarm.move s step n leader t.particle).1, t.visited ++ [t.particle.current]⟩

/-- What the particles were told in a round, and the cost of the finding after it. -/
structure Round where
  told : List Event
  cost : ℕ

/-- The reports of some rounds, numbered from `start` on. -/
def reports (start : ℕ) (rounds : List Round) : List Event :=
  (rounds.zipIdx start).flatMap fun (r, i) => r.told ++ [.swarm i r.cost]

/-- The first round is reported first. -/
theorem reports_cons (start : ℕ) (r : Round) (rounds : List Round) :
    reports start (r :: rounds) = r.told ++ .swarm start r.cost :: reports (start + 1) rounds := by
  simp [reports, List.zipIdx_cons]

/-- A swarm after some rounds. -/
structure Stage (σ : Type) where
  tracks : List (Track σ)
  found : Option (Finding σ)
  rounds : List Round

namespace Stage

/-- The particles are launched and nothing is evaluated yet. -/
def start (s : Settings) (source : ℕ → Generator) (seed n : ℕ) : Stage σ :=
  ⟨(List.range (max s.swarmSize 1)).map fun i => ⟨launch source seed n i, []⟩, none, []⟩

/-- The placement towards which particles are drawn. -/
def leader (n : ℕ) (stage : Stage σ) : List ℕ := (stage.found.map (·.point)).getD (List.range n)

/-- One more round: all particles move, then the finding of the swarm is replaced by a better
one. -/
def next (s : Settings) (step : List ℕ → Step σ) (n : ℕ) (stage : Stage σ) : Stage σ :=
  let tracks := stage.tracks.map (Track.move s step n (stage.leader n))
  let found := advance stage.found (tracks.map (·.particle))
  let told := stage.tracks.flatMap fun t => (move s step n (stage.leader n) t.particle).2
  ⟨tracks, found, stage.rounds ++ [⟨told, (found.map (·.cost)).getD infeasible⟩]⟩

/-- The placements at which any particle was evaluated. -/
def visited (stage : Stage σ) : List (List ℕ) := stage.tracks.flatMap (·.visited)

end Stage

/-- The stage after the given number of rounds. -/
def stageAfter (s : Settings) (source : ℕ → Generator) (seed : ℕ) (step : List ℕ → Step σ)
    (n : ℕ) : ℕ → Stage σ
  | 0 => Stage.start s source seed n
  | k + 1 => (stageAfter s source seed step n k).next s step n

/-- There is one round for every step. -/
theorem length_rounds_stageAfter (k : ℕ) :
    (stageAfter s source seed step n k).rounds.length = k := by
  induction k with
  | zero => rfl
  | succ k ih => exact List.length_append.trans (congrArg (· + 1) ih)

/-! ## Best findings -/

/-- **The best finding** on the placements visited: there is none only if nothing was visited. -/
def IsBest (step : List ℕ → Step σ) (visited : List (List ℕ)) : Option (Finding σ) → Prop
  | none => visited = []
  | some f => f.Told step ∧ f.point ∈ visited ∧ ∀ p ∈ visited, f.cost ≤ (step p).cost

/-- A particle on a placement, with the best finding of where it was. -/
structure Track.Holds (step : List ℕ → Step σ) (n : ℕ) (t : Track σ) : Prop where
  current : IsPermutation t.particle.current n
  visited : ∀ p ∈ t.visited, IsPermutation p n
  best : IsBest step t.visited t.particle.best

/-- **What holds of a stage.** -/
structure Stage.Holds (s : Settings) (step : List ℕ → Step σ) (n : ℕ) (stage : Stage σ) :
    Prop where
  length_tracks : stage.tracks.length = max s.swarmSize 1
  tracks : ∀ t ∈ stage.tracks, t.Holds step n
  /-- Every particle is evaluated once in each round. -/
  length_visited : ∀ t ∈ stage.tracks, t.visited.length = stage.rounds.length
  /-- Some particle has started from the identity. -/
  identity : ∃ t ∈ stage.tracks, (t.visited ++ [t.particle.current]).head? = some (List.range n)
  found : IsBest step stage.visited stage.found
  /-- The reported costs go down from the identity's to that of the finding. -/
  declines : Declines (step (List.range n)).cost (stage.rounds.map (·.cost))
    ((stage.found.map (·.cost)).getD (step (List.range n)).cost)
  last : ∀ r ∈ stage.rounds.getLast?, stage.found.map (·.cost) = some r.cost

/-- **A particle that moves** keeps the best finding of where it was. -/
theorem isBest_move (leader : List ℕ) {t : Track σ} (h : IsBest step t.visited t.particle.best) :
    ∃ f, (t.move s step n leader).particle.best = some f ∧
      IsBest step (t.move s step n leader).visited (some f) := by
  have hcurrent : t.particle.current ∈ (t.move s step n leader).visited :=
    List.mem_append_right _ (List.mem_singleton_self _)
  rcases move_cases s step n leader t.particle with
    ⟨hle, hbest, _⟩ | ⟨old, hold, hlt, hbest, _⟩
  · refine ⟨_, hbest, ⟨rfl, rfl⟩, hcurrent, ?_⟩
    intro p hp
    rcases List.mem_append.mp hp with hp | hp
    · cases hparticle : t.particle.best with
      | none =>
        rw [hparticle] at h
        rw [show t.visited = [] from h] at hp
        cases hp
      | some old =>
        rw [hparticle] at h
        exact (hle old hparticle).trans (h.2.2 p hp)
    · rw [List.mem_singleton.mp hp]
  · rw [hold] at h
    obtain ⟨htold, hpoint, hmin⟩ := h
    refine ⟨old, hbest, htold, List.mem_append_left _ hpoint, ?_⟩
    intro p hp
    rcases List.mem_append.mp hp with hp | hp
    · exact hmin p hp
    · rw [List.mem_singleton.mp hp]
      exact hlt.le

/-- A move keeps what holds of a particle. -/
theorem holds_move (hstep : ∀ p, IsPermutation p n → IsPermutation (step p).next n)
    {leader : List ℕ} (hleader : IsPermutation leader n) {t : Track σ} (h : t.Holds step n) :
    (t.move s step n leader).Holds step n := by
  obtain ⟨f, hbest, hf⟩ := isBest_move (s := s) (n := n) leader h.best
  have hsound : t.particle.Sound (fun _ => True) n := by
    refine ⟨h.current, fun old hold => ⟨?_, trivial⟩⟩
    have hold' := h.best
    rw [show t.particle.best = some old from hold] at hold'
    exact h.visited _ hold'.2.1
  refine ⟨(sound_move ⟨hstep, fun _ _ => trivial⟩ hleader hsound).1.current, ?_, hbest ▸ hf⟩
  intro p hp
  rcases List.mem_append.mp hp with hp | hp
  · exact h.visited p hp
  · rw [List.mem_singleton.mp hp]
    exact h.current

/-- **The leader of the swarm** has the best finding of all placements visited. -/
theorem isBest_leader? {tracks : List (Track σ)} (hne : tracks ≠ [])
    (h : ∀ t ∈ tracks, ∃ f, t.particle.best = some f ∧ IsBest step t.visited (some f)) :
    ∃ new, leader? (tracks.map (·.particle)) = some new ∧
      IsBest step (tracks.flatMap (·.visited)) (some new) := by
  have hsome : ∀ p ∈ tracks.map (·.particle), p.best.isSome = true := by
    intro p hp
    obtain ⟨t, ht, rfl⟩ := List.mem_map.mp hp
    obtain ⟨f, hf, _⟩ := h t ht
    rw [hf]
    rfl
  obtain ⟨new, hnew⟩ := exists_leader? (by simpa using hne) hsome
  obtain ⟨_, hp, hbest⟩ := List.mem_filterMap.mp (leastBy_mem hnew)
  obtain ⟨t, ht, rfl⟩ := List.mem_map.mp hp
  obtain ⟨_, hf, htold, hpoint, _⟩ := h t ht
  obtain rfl := Option.some.inj (hf.symm.trans hbest)
  refine ⟨_, hnew, htold, List.mem_flatMap.mpr ⟨t, ht, hpoint⟩, ?_⟩
  intro q hq
  obtain ⟨u, hu, hq⟩ := List.mem_flatMap.mp hq
  obtain ⟨g, hg, _, _, hmin⟩ := h u hu
  exact (leader?_le hnew (List.mem_map_of_mem hu) hg).trans (hmin q hq)

/-- **After a round** the finding of the swarm is the best of all placements visited, and costs at
most what the last one did. -/
theorem isBest_advance {tracks : List (Track σ)} (hne : tracks ≠ [])
    (h : ∀ t ∈ tracks, ∃ f, t.particle.best = some f ∧ IsBest step t.visited (some f))
    {visited : List (List ℕ)} {found : Option (Finding σ)} (hfound : IsBest step visited found)
    (hsub : visited ⊆ tracks.flatMap (·.visited)) :
    ∃ f, advance found (tracks.map (·.particle)) = some f ∧
      IsBest step (tracks.flatMap (·.visited)) (some f) ∧ ∀ old ∈ found, f.cost ≤ old.cost := by
  obtain ⟨new, hnew, hbest⟩ := isBest_leader? hne h
  obtain ⟨f, hadvance, hle, hold, rfl | hsame⟩ := advance_best hnew found
  · exact ⟨f, hadvance, hbest, hold⟩
  · rw [hsame] at hfound
    refine ⟨f, hadvance, ⟨hfound.1, hsub hfound.2.1, ?_⟩, hold⟩
    exact fun p hp => hle.trans (hbest.2.2 p hp)

/-! ## Rounds -/

/-- The first stage holds: no placement has been tried yet. -/
theorem holds_start (s : Settings) (source : ℕ → Generator) (seed : ℕ) (step : List ℕ → Step σ)
    (n : ℕ) : (Stage.start s source seed n : Stage σ).Holds s step n := by
  have htracks : ∀ t ∈ (Stage.start s source seed n : Stage σ).tracks,
      ∃ i, t = ⟨launch source seed n i, []⟩ := by
    intro t ht
    obtain ⟨i, _, rfl⟩ := List.mem_map.mp ht
    exact ⟨i, rfl⟩
  refine ⟨by simp [Stage.start], ?_, ?_, ?_, ?_, declines_nil le_rfl, nofun⟩
  · intro t ht
    obtain ⟨i, rfl⟩ := htracks t ht
    refine ⟨(sound_launch (P := fun _ => True) source seed n i).current, nofun, ?_⟩
    have hnone : (launch source seed n i : Particle σ).best = none := by
      unfold launch
      dsimp only
      split <;> rfl
    rw [hnone]
    rfl
  · intro t ht
    obtain ⟨i, rfl⟩ := htracks t ht
    rfl
  · exact ⟨_, List.mem_map_of_mem (List.mem_range.mpr (by omega : 0 < max s.swarmSize 1)), rfl⟩
  · refine List.flatMap_eq_nil_iff.mpr fun t ht => ?_
    obtain ⟨i, rfl⟩ := htracks t ht
    rfl

namespace Stage

variable {stage : Stage σ}

/-- The tracks of the next stage are those of this one, moved on. -/
theorem mem_tracks_next {u : Track σ} : u ∈ (stage.next s step n).tracks ↔
    ∃ t ∈ stage.tracks, t.move s step n (stage.leader n) = u :=
  List.mem_map

/-- The next stage has one round more. -/
theorem rounds_next (s : Settings) (step : List ℕ → Step σ) (n : ℕ) (stage : Stage σ) :
    (stage.next s step n).rounds = stage.rounds ++
      [⟨stage.tracks.flatMap fun t => (move s step n (stage.leader n) t.particle).2,
        ((stage.next s step n).found.map (·.cost)).getD infeasible⟩] :=
  rfl

/-- Records grow. -/
theorem visited_subset_next : stage.visited ⊆ (stage.next s step n).visited := by
  intro p hp
  obtain ⟨t, ht, hp⟩ := List.mem_flatMap.mp hp
  exact List.mem_flatMap.mpr
    ⟨_, mem_tracks_next.mpr ⟨t, ht, rfl⟩, List.mem_append_left _ hp⟩

/-- Only placements are visited. -/
theorem Holds.isPermutation_visited (h : stage.Holds s step n) {p : List ℕ}
    (hp : p ∈ stage.visited) : IsPermutation p n := by
  obtain ⟨t, ht, hp⟩ := List.mem_flatMap.mp hp
  exact (h.tracks t ht).visited p hp

/-- Particles are drawn towards a placement. -/
theorem Holds.isPermutation_leader (h : stage.Holds s step n) :
    IsPermutation (stage.leader n) n := by
  have hfound := h.found
  unfold leader
  cases hf : stage.found with
  | none => exact isPermutation_range n
  | some f =>
    rw [hf] at hfound
    exact h.isPermutation_visited hfound.2.1

/-- Every round ends with a finding. -/
theorem Holds.exists_found_next (h : stage.Holds s step n) :
    ∃ f, (stage.next s step n).found = some f ∧
      IsBest step (stage.next s step n).visited (some f) ∧
        ∀ old ∈ stage.found, f.cost ≤ old.cost := by
  obtain ⟨t, ht, _⟩ := h.identity
  refine isBest_advance (List.ne_nil_of_mem (mem_tracks_next.mpr ⟨t, ht, rfl⟩)) ?_ h.found
    visited_subset_next
  intro u hu
  obtain ⟨t, ht, rfl⟩ := mem_tracks_next.mp hu
  exact isBest_move _ (h.tracks t ht).best

end Stage

/-- **One more round** keeps what holds. -/
theorem holds_next (hstep : ∀ p, IsPermutation p n → IsPermutation (step p).next n)
    {stage : Stage σ} (h : stage.Holds s step n) : (stage.next s step n).Holds s step n := by
  obtain ⟨f, hfound, hbest, hold⟩ := h.exists_found_next
  have hrounds := Stage.rounds_next s step n stage
  rw [hfound] at hrounds
  obtain ⟨first, hfirst, hidentity⟩ := h.identity
  have hfirst' : first.move s step n (stage.leader n) ∈ (stage.next s step n).tracks :=
    Stage.mem_tracks_next.mpr ⟨first, hfirst, rfl⟩
  refine ⟨?_, ?_, ?_, ⟨_, hfirst', ?_⟩, hfound ▸ hbest, ?_, ?_⟩
  · exact (List.length_map _).trans h.length_tracks
  · intro u hu
    obtain ⟨t, ht, rfl⟩ := Stage.mem_tracks_next.mp hu
    exact holds_move hstep h.isPermutation_leader (h.tracks t ht)
  · intro u hu
    obtain ⟨t, ht, rfl⟩ := Stage.mem_tracks_next.mp hu
    rw [hrounds, List.length_append, ← h.length_visited t ht]
    exact List.length_append
  · rw [List.head?_append, Track.move, hidentity, Option.some_or]
  · -- the identity was visited in the first round at the latest
    have hle : f.cost ≤ (step (List.range n)).cost :=
      hbest.2.2 _ (List.mem_flatMap.mpr ⟨_, hfirst', List.mem_of_head? hidentity⟩)
    rw [hrounds, List.map_append, hfound]
    refine h.declines.concat ?_
    cases hf : stage.found with
    | none => exact hle
    | some old => exact hold old hf
  · intro r hr
    rw [hrounds, List.getLast?_concat] at hr
    rw [hfound, ← Option.some.inj hr]
    rfl

/-- **Every stage holds.** -/
theorem holds_stageAfter (hstep : ∀ p, IsPermutation p n → IsPermutation (step p).next n)
    (k : ℕ) : (stageAfter s source seed step n k).Holds s step n := by
  induction k with
  | zero => exact holds_start s source seed step n
  | succ k ih => exact holds_next hstep ih

/-- After at least one round there is a finding. -/
theorem exists_found_stageAfter (hstep : ∀ p, IsPermutation p n → IsPermutation (step p).next n)
    {k : ℕ} (hk : 0 < k) :
    ∃ f, (stageAfter s source seed step n k).found = some f ∧
      IsBest step (stageAfter s source seed step n k).visited (some f) := by
  cases k with
  | zero => cases hk
  | succ k =>
    have hholds : (stageAfter s source seed step n k).Holds s step n := holds_stageAfter hstep k
    obtain ⟨f, hfound, hbest, _⟩ := hholds.exists_found_next
    exact ⟨f, hfound, hbest⟩

/-! ## Nothing else is evaluated -/

/-- A round depends on what the particles are told where they are only. -/
theorem Stage.next_congr {step' : List ℕ → Step σ} {stage : Stage σ}
    (h : ∀ t ∈ stage.tracks, step' t.particle.current = step t.particle.current) :
    stage.next s step' n = stage.next s step n := by
  have hmove : ∀ t ∈ stage.tracks, move s step' n (stage.leader n) t.particle =
      move s step n (stage.leader n) t.particle := by
    intro t ht
    unfold move
    rw [h t ht]
  have htracks : stage.tracks.map (Track.move s step' n (stage.leader n)) =
      stage.tracks.map (Track.move s step n (stage.leader n)) := by
    refine List.map_congr_left fun t ht => ?_
    unfold Track.move
    rw [hmove t ht]
  have htold : (stage.tracks.flatMap fun t => (move s step' n (stage.leader n) t.particle).2) =
      stage.tracks.flatMap fun t => (move s step n (stage.leader n) t.particle).2 :=
    List.flatMap_congr fun t ht => congrArg Prod.snd (hmove t ht)
  unfold next
  dsimp only
  rw [htracks, htold]

/-- **The stage depends on what is told of the placements visited only.** -/
theorem stageAfter_congr {step' : List ℕ → Step σ} (k : ℕ)
    (h : ∀ p ∈ (stageAfter s source seed step n k).visited, step' p = step p) :
    stageAfter s source seed step' n k = stageAfter s source seed step n k := by
  induction k with
  | zero => rfl
  | succ k ih =>
    unfold stageAfter
    rw [ih fun p hp => h p (Stage.visited_subset_next hp)]
    refine Stage.next_congr fun t ht => h _ ?_
    -- where a particle is now is recorded in the next round
    exact List.mem_flatMap.mpr ⟨_, Stage.mem_tracks_next.mpr ⟨t, ht, rfl⟩,
      List.mem_append_right _ (List.mem_singleton_self _)⟩

/-! ## Searches -/

/-- **A search goes from stage to stage** and reports every round. -/
theorem search_eq (s : Settings) (source : ℕ → Generator) (seed : ℕ) (step : List ℕ → Step σ)
    (n k j : ℕ) :
    ∃ later, (stageAfter s source seed step n (j + k)).rounds =
        (stageAfter s source seed step n j).rounds ++ later ∧
      search s step n k j ((stageAfter s source seed step n j).tracks.map (·.particle))
          (stageAfter s source seed step n j).found =
        ((stageAfter s source seed step n (j + k)).found, reports j later) := by
  induction k generalizing j with
  | zero => exact ⟨[], (List.append_nil _).symm, rfl⟩
  | succ k ih =>
    obtain ⟨later, hrounds, hsearch⟩ := ih (j + 1)
    rw [Nat.succ_add_eq_add_succ] at hrounds hsearch
    set stage := stageAfter s source seed step n j
    have hnext : stageAfter s source seed step n (j + 1) = stage.next s step n := rfl
    rw [hnext] at hrounds hsearch
    rw [Stage.rounds_next, List.append_assoc] at hrounds
    refine ⟨_, hrounds, ?_⟩
    -- the particles and the finding of the next round are those of the next stage
    have hmoved : ((stage.tracks.map (·.particle)).map (move s step n (stage.leader n))).map (·.1) =
        (stage.next s step n).tracks.map (·.particle) := by
      simp [Stage.next, Track.move, Function.comp_def]
    have hfound : advance stage.found ((stage.next s step n).tracks.map (·.particle)) =
        (stage.next s step n).found := rfl
    unfold search
    dsimp only
    rw [← Stage.leader, hmoved, hfound, hsearch, List.map_map, List.flatMap_map]
    rw [List.singleton_append, reports_cons]
    rfl

/-- **A search returns the finding of the stage it ends with.** -/
theorem find_eq (s : Settings) (source : ℕ → Generator) (seed : ℕ) (step : List ℕ → Step σ)
    (default : σ) (n steps : ℕ) :
    find s source seed step default n steps =
      let final := stageAfter s source seed step n (max steps 1)
      (final.found.getD ⟨List.range n, default, infeasible⟩, reports 0 final.rounds) := by
  obtain ⟨later, hrounds, hsearch⟩ := search_eq s source seed step n (max steps 1) 0
  rw [Nat.zero_add] at hrounds hsearch
  have hlaunch : (stageAfter s source seed step n 0).tracks.map (·.particle) =
      (List.range (max s.swarmSize 1)).map (launch source seed n) := List.map_map
  rw [hlaunch] at hsearch
  obtain rfl : (stageAfter s source seed step n (max steps 1)).rounds = later := hrounds
  unfold find
  dsimp only
  rw [show (none : Option (Finding σ)) = (stageAfter s source seed step n 0).found from rfl,
    hsearch]

/-- **The invariants of a swarm search**, for every step function that leads from placements to
placements, all settings, every number of rounds and every draw. Every stage `Holds`, and nothing
outside its record has been looked at. A search returns the finding of its last stage, which is what
the step function tells of a placement visited, at the least cost of all evaluations. It is carried
out exactly if its particles and its qubits can be held. -/
theorem find_invariant (hstep : ∀ p, IsPermutation p n → IsPermutation (step p).next n)
    (s : Settings) (source : ℕ → Generator) (seed : ℕ) :
    (∀ k, (stageAfter s source seed step n k).Holds s step n ∧
      (stageAfter s source seed step n k).rounds.length = k ∧
      ∀ step', (∀ p ∈ (stageAfter s source seed step n k).visited, step' p = step p) →
        stageAfter s source seed step' n k = stageAfter s source seed step n k) ∧
    ∀ default steps,
      let final := stageAfter s source seed step n (max steps 1)
      ∃ f, final.found = some f ∧
        find s source seed step default n steps = (f, reports 0 final.rounds) ∧
        (∀ r, find? s source seed step default n steps = .ok r ↔
          s.swarmSize < addressLimit ∧ n < addressLimit ∧ (f, reports 0 final.rounds) = r) ∧
        IsPermutation f.point n ∧ f.solution = (step f.point).solution ∧
        f.cost = (step f.point).cost ∧
        IsLeast {c | ∃ p ∈ final.visited, c = (step p).cost} f.cost := by
  refine ⟨fun k => ⟨holds_stageAfter hstep k, length_rounds_stageAfter k,
    fun step' => stageAfter_congr k⟩, ?_⟩
  intro default steps final
  have hholds : final.Holds s step n := holds_stageAfter hstep _
  obtain ⟨f, hfound, htold, hpoint, hmin⟩ : ∃ f, final.found = some f ∧
      IsBest step final.visited (some f) := exists_found_stageAfter hstep (by omega)
  have hfind : find s source seed step default n steps = (f, reports 0 final.rounds) := by
    rw [find_eq]
    dsimp only
    rw [show (stageAfter s source seed step n (max steps 1)).found = some f from hfound]
    rfl
  refine ⟨f, hfound, hfind, fun r => hfind ▸ find?_eq_ok_iff, hholds.isPermutation_visited hpoint,
    htold.solution_eq, htold.cost_eq, ⟨f.point, hpoint, htold.cost_eq⟩, ?_⟩
  rintro c ⟨p, hp, rfl⟩
  exact hmin p hp

/-- Two particles on three qubits and a step function that turns a placement round, where a
placement costs less the larger its first gene is. The particles start from `[0, 1, 2]` and `[1, 2,
0]`, and the first one is on `[2, 1, 0]` in the second round. -/
theorem find_invariant_three :
    let s : Settings := { Settings.default with swarmSize := 2 }
    let source : ℕ → Generator := fun _ => ⟨Dice.ofWords, fun _ => [0], 0, []⟩
    let step : List ℕ → Step (List ℕ) := fun p => ⟨p.reverse, p, 3 - p.headD 0, []⟩
    (∀ p, IsPermutation p 3 → IsPermutation (step p).next 3) ∧
      (stageAfter s source 0 step 3 2).Holds s step 3 ∧
      ∃ f, (stageAfter s source 0 step 3 2).found = some f ∧
        find s source 0 step [] 3 2 = (f, [.swarm 0 2, .swarm 1 1]) ∧
        f.point = [2, 1, 0] ∧ f.solution = [2, 1, 0] ∧ f.cost = 1 := by
  intro s source step
  have hstep : ∀ p, IsPermutation p 3 → IsPermutation (step p).next 3 :=
    fun p hp => hp.of_perm (List.reverse_perm p)
  obtain ⟨hstages, hfind⟩ := find_invariant hstep s source 0
  obtain ⟨f, hfound, heq, _⟩ := hfind [] 2
  have hresult : (find s source 0 step [] 3 2).1.point = [2, 1, 0] ∧
      (find s source 0 step [] 3 2).1.solution = [2, 1, 0] ∧
      (find s source 0 step [] 3 2).1.cost = 1 ∧
      (find s source 0 step [] 3 2).2 = [.swarm 0 2, .swarm 1 1] := by decide +kernel
  rw [heq] at hresult
  obtain ⟨hpoint, hsolution, hcost, hreports⟩ := hresult
  exact ⟨hstep, (hstages 2).1, f, hfound, heq.trans (congrArg (f, ·) hreports), hpoint, hsolution,
    hcost⟩

end CnotSynthesis.Swarm
