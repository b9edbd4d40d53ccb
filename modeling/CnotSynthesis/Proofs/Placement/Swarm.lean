import CnotSynthesis.Placement.Swarm
import CnotSynthesis.Proofs.Placement.Operators

/-! # Swarms stay on placements

Particles start on placements, move where a step sends them, and are shaken by operators that make
placements of placements. So if a step finds something good on every placement, the swarm does.

* **`Swarm.StaysOn P n step`** — from a placement, the step moves to a placement and finds something
  with the property `P`.
* **`Swarm.move_cases`** — all that a move does to a particle.
* **`Swarm.sound_move`** — one particle; **`Swarm.search_sound`** — many steps of all particles.
* **`Swarm.sound_find`** — what the search returns was found on a placement. -/

namespace CnotSynthesis.Swarm

open Placement Draw

variable {σ : Type} {P : σ → Prop} {s : Settings} {step : List ℕ → Step σ} {n : ℕ}

/-- **A step that stays on placements** of `n` qubits. -/
structure StaysOn (P : σ → Prop) (n : ℕ) (step : List ℕ → Step σ) : Prop where
  next : ∀ p, IsPermutation p n → IsPermutation (step p).next n
  solution : ∀ p, IsPermutation p n → P (step p).solution

/-- Something good, found on a placement. -/
structure Finding.Sound (P : σ → Prop) (n : ℕ) (f : Finding σ) : Prop where
  point : IsPermutation f.point n
  solution : P f.solution

/-- A particle on a placement. -/
structure Particle.Sound (P : σ → Prop) (n : ℕ) (p : Particle σ) : Prop where
  current : IsPermutation p.current n
  best : ∀ f ∈ p.best, f.Sound P n

/-! ## One particle -/

/-- A shaken particle is on a placement. -/
theorem always_shake {current personal leader : List ℕ} (hcurrent : IsPermutation current n)
    (hpersonal : IsPermutation personal n) (hleader : IsPermutation leader n) :
    Always (IsPermutation · n) (shake s n current personal leader) := by
  refine (always_mutateShuffle hcurrent _).bind fun shaken hshaken => ?_
  refine (always_crossPositions hshaken hpersonal _).bind fun drawn hdrawn => ?_
  exact always_crossPositions hdrawn hleader _

/-- **What a move does**: the particle notes what it was told, if that is at most as dear as what it
has noted, and goes where it was sent. Else it keeps its best finding; it is shaken if it was told
to stay. -/
theorem move_cases (s : Settings) (step : List ℕ → Step σ) (n : ℕ) (leader : List ℕ)
    (p : Particle σ) :
    (∀ old ∈ p.best, (step p.current).cost ≤ old.cost) ∧
        (move s step n leader p).1.best =
          some ⟨p.current, (step p.current).solution, (step p.current).cost⟩ ∧
        (move s step n leader p).1.current = (step p.current).next ∨
      ∃ old, p.best = some old ∧ old.cost < (step p.current).cost ∧
        (move s step n leader p).1.best = some old ∧
        ((move s step n leader p).1.current = (step p.current).next ∨
          ∃ g, (move s step n leader p).1.current =
            (shake s n p.current old.point leader g).1) := by
  unfold move
  dsimp only
  cases hbest : p.best with
  | none => exact .inl ⟨nofun, rfl, rfl⟩
  | some old =>
    by_cases hle : (step p.current).cost ≤ old.cost
    · rw [if_pos (by simpa [improves] using hle)]
      refine .inl ⟨?_, rfl, rfl⟩
      rintro _ ⟨⟩
      exact hle
    · rw [if_neg (by simpa [improves] using hle)]
      refine .inr ⟨old, rfl, Nat.not_le.mp hle, ?_⟩
      split
      · exact ⟨rfl, .inr ⟨p.generator, rfl⟩⟩
      · exact ⟨rfl, .inl rfl⟩

/-- **A particle that moves** is on a placement again, and has found something. -/
theorem sound_move (hstep : StaysOn P n step) {leader : List ℕ} (hleader : IsPermutation leader n)
    {p : Particle σ} (h : p.Sound P n) :
    (move s step n leader p).1.Sound P n ∧ (move s step n leader p).1.best.isSome = true := by
  have hnext := hstep.next p.current h.current
  rcases move_cases s step n leader p with
    ⟨_, hbest, hcurrent⟩ | ⟨old, hold, _, hbest, hcurrent⟩
  · refine ⟨⟨hcurrent ▸ hnext, ?_⟩, hbest ▸ rfl⟩
    rw [hbest]
    rintro _ ⟨⟩
    exact ⟨h.current, hstep.solution p.current h.current⟩
  · have hsound := h.best old hold
    refine ⟨⟨?_, ?_⟩, hbest ▸ rfl⟩
    · rcases hcurrent with hcurrent | ⟨g, hcurrent⟩
      · exact hcurrent ▸ hnext
      · rw [hcurrent]
        exact always_shake h.current hsound.point hleader g
    · rw [hbest]
      rintro _ ⟨⟩
      exact hsound

/-- A particle is launched on a placement. -/
theorem sound_launch (source : ℕ → Generator) (seed n i : ℕ) :
    (launch source seed n i : Particle σ).Sound P n := by
  unfold launch
  dsimp only
  split
  · exact ⟨isPermutation_range n, nofun⟩
  · exact ⟨always_permutation n _, nofun⟩

/-! ## The swarm -/

/-- The best of the particles' findings. -/
theorem leader?_sound {particles : List (Particle σ)} (h : ∀ p ∈ particles, p.Sound P n) :
    ∀ f ∈ leader? particles, f.Sound P n := by
  intro f hf
  obtain ⟨p, hp, hbest⟩ := List.mem_filterMap.mp (leastBy_mem hf)
  exact (h p hp).best f hbest

/-- A swarm whose particles have found something has a leader. -/
theorem exists_leader? {particles : List (Particle σ)} (hne : particles ≠ [])
    (h : ∀ p ∈ particles, p.best.isSome = true) : ∃ f, leader? particles = some f := by
  obtain ⟨p, hp⟩ := List.exists_mem_of_ne_nil _ hne
  obtain ⟨best, hbest⟩ := Option.isSome_iff_exists.mp (h p hp)
  exact exists_leastBy _ (List.ne_nil_of_mem (List.mem_filterMap.mpr ⟨p, hp, hbest⟩))

/-- **After the particles have moved** the swarm has found something. -/
theorem advance_sound {particles : List (Particle σ)} (hne : particles ≠ [])
    (h : ∀ p ∈ particles, p.Sound P n ∧ p.best.isSome = true) {found : Option (Finding σ)}
    (hfound : ∀ f ∈ found, f.Sound P n) :
    ∃ f, advance found particles = some f ∧ f.Sound P n := by
  obtain ⟨new, hnew⟩ := exists_leader? hne fun p hp => (h p hp).2
  have hsound := leader?_sound (fun p hp => (h p hp).1) new hnew
  unfold advance
  rw [hnew]
  cases found with
  | none => exact ⟨new, rfl, hsound⟩
  | some old =>
    dsimp only
    split
    · exact ⟨new, rfl, hsound⟩
    · exact ⟨old, rfl, hfound old rfl⟩

/-- **Many steps**: once a step has been made the swarm has found something. -/
theorem search_sound (hstep : StaysOn P n step) (k : ℕ) :
    ∀ (index : ℕ) (particles : List (Particle σ)) (found : Option (Finding σ)),
      particles ≠ [] → (∀ p ∈ particles, p.Sound P n) → (∀ f ∈ found, f.Sound P n) →
      0 < k ∨ found.isSome = true →
      ∃ f, (search s step n k index particles found).1 = some f ∧ f.Sound P n := by
  induction k with
  | zero =>
    intro index particles found _ _ hfound hsome
    obtain ⟨f, hf⟩ := Option.isSome_iff_exists.mp (hsome.resolve_left (Nat.lt_irrefl 0))
    exact ⟨f, hf, hfound f hf⟩
  | succ k ih =>
    intro index particles found hne hparticles hfound _
    have hleader : IsPermutation ((found.map (·.point)).getD (List.range n)) n := by
      cases found with
      | none => exact isPermutation_range n
      | some old => exact (hfound old rfl).point
    -- the particles after this step
    generalize hmoved : (particles.map
      (move s step n ((found.map (·.point)).getD (List.range n)))).map (·.1) = moved
    have hall : ∀ p ∈ moved, p.Sound P n ∧ p.best.isSome = true := by
      intro p hp
      rw [← hmoved, List.map_map] at hp
      obtain ⟨q, hq, rfl⟩ := List.mem_map.mp hp
      exact sound_move hstep hleader (hparticles q hq)
    have hne' : moved ≠ [] := by
      rw [← hmoved]
      simpa using hne
    obtain ⟨f, hadvance, hf⟩ := advance_sound hne' hall hfound
    have hrest := ih (index + 1) moved (advance found moved) hne' (fun p hp => (hall p hp).1)
      (by rw [hadvance]; rintro _ ⟨⟩; exact hf) (.inr (by rw [hadvance]; rfl))
    unfold search
    dsimp only
    rw [hmoved]
    exact hrest

/-- **The search returns what a step found** on a placement, whatever is drawn. -/
theorem sound_find (hstep : StaysOn P n step) (source : ℕ → Generator) (seed : ℕ) (default : σ)
    (steps : ℕ) : (find s source seed step default n steps).1.Sound P n := by
  have hparticles : (List.range (max s.swarmSize 1)).map (launch source seed n : ℕ → Particle σ) ≠
      [] := by
    simp only [ne_eq, List.map_eq_nil_iff, List.range_eq_nil]
    omega
  obtain ⟨f, hf, hsound⟩ := search_sound (s := s) hstep (max steps 1) 0
    ((List.range (max s.swarmSize 1)).map (launch source seed n)) none hparticles
    (by
      intro p hp
      obtain ⟨i, _, rfl⟩ := List.mem_map.mp hp
      exact sound_launch source seed n i)
    nofun (.inl (by omega))
  unfold find
  dsimp only
  rw [hf]
  exact hsound

/-- **A search is carried out** exactly if its particles and its qubits can be held. -/
theorem find?_eq_ok_iff {source : ℕ → Generator} {seed steps : ℕ} {default : σ}
    {r : Finding σ × List Event} :
    find? s source seed step default n steps = .ok r ↔
      s.swarmSize < addressLimit ∧ n < addressLimit ∧
        find s source seed step default n steps = r := by
  unfold find? requireRoom
  by_cases hsize : s.swarmSize < addressLimit
  · by_cases hn : n < addressLimit
    · rw [if_pos hsize, if_pos hn]
      exact ⟨fun h => ⟨hsize, hn, Except.ok.inj h⟩, fun h => congrArg Except.ok h.2.2⟩
    · rw [if_pos hsize, if_neg hn]
      exact ⟨nofun, fun h => absurd h.2.1 hn⟩
  · rw [if_neg hsize]
    exact ⟨nofun, fun h => absurd h.1 hsize⟩

end CnotSynthesis.Swarm
