import CnotSynthesis.Permutation
import Mathlib

/-! # Permutations as lists: inverse and composition

* **`IsPermutation.mem_iff`** — a permutation of `0..n` lists exactly the numbers below `n`.
* **`IsPermutation.getD_inverse`**, **`IsPermutation.getD_getD_inverse`**,
  **`IsPermutation.inverse`** — `Permutation.inverse` inverts.
* **`IsPermutation.compose`** — permutations can be composed; **`Permutation.compose_range`**,
  **`Permutation.range_compose`** — with the identity this changes nothing. -/

namespace CnotSynthesis

variable {perm : List ℕ} {n : ℕ}

namespace IsPermutation

/-- A permutation rearranges the numbers below its length. -/
theorem perm_range (h : IsPermutation perm n) : perm.Perm (List.range n) := by
  have hsub : perm.Subperm (List.range n) :=
    List.subperm_of_subset h.nodup fun p hp => List.mem_range.mpr (h.lt p hp)
  exact hsub.perm_of_length_le (by rw [List.length_range, h.length_eq])

/-- A rearranged permutation is a permutation. -/
theorem of_perm {p q : List ℕ} (h : IsPermutation p n) (hqp : q.Perm p) : IsPermutation q n :=
  ⟨hqp.length_eq.trans h.length_eq, fun x hx => h.lt x (hqp.mem_iff.mp hx),
    hqp.nodup_iff.mpr h.nodup⟩

/-- **A permutation lists every number once.** -/
theorem mem_iff (h : IsPermutation perm n) {p : ℕ} : p ∈ perm ↔ p < n :=
  h.perm_range.mem_iff.trans List.mem_range

/-- A permutation has all numbers below its length. -/
theorem toFinset_eq (h : IsPermutation perm n) : perm.toFinset = Finset.range n := by
  ext p
  rw [List.mem_toFinset, Finset.mem_range, h.mem_iff]

/-- The values of a permutation are below its length. -/
theorem getD_lt (h : IsPermutation perm n) {i : ℕ} (hi : i < n) : perm.getD i 0 < n := by
  rw [List.getD_eq_getElem _ _ (by rw [h.length_eq]; exact hi)]
  exact h.lt _ (List.getElem_mem _)

/-- A permutation takes no value twice. -/
theorem getD_inj (h : IsPermutation perm n) {i j : ℕ} (hi : i < n) (hj : j < n)
    (hij : perm.getD i 0 = perm.getD j 0) : i = j := by
  rw [List.getD_eq_getElem _ _ (by rw [h.length_eq]; exact hi),
    List.getD_eq_getElem _ _ (by rw [h.length_eq]; exact hj)] at hij
  exact (h.nodup.getElem_inj_iff).mp hij

end IsPermutation

/-! ## Inverse -/

namespace Permutation

/-- Writing positions at distinct places: each place holds its position, the others what they
held. -/
theorem foldl_set_zipIdx (xs : List ℕ) : ∀ (k : ℕ) (acc : List ℕ), xs.Nodup →
    (∀ p ∈ xs, p < acc.length) →
    let result := (xs.zipIdx k).foldl (fun inv (p, i) => inv.set p i) acc
    result.length = acc.length ∧ (∀ i p, xs[i]? = some p → result[p]? = some (k + i)) ∧
      ∀ p, p ∉ xs → result[p]? = acc[p]? := by
  induction xs with
  | nil => exact fun k acc _ _ => ⟨rfl, by simp, fun _ _ => rfl⟩
  | cons x xs ih =>
    intro k acc hnodup hlt
    obtain ⟨hx, hnodup⟩ := List.nodup_cons.mp hnodup
    have hlt' : ∀ p ∈ xs, p < (acc.set x k).length := by
      intro p hp
      rw [List.length_set]
      exact hlt p (List.mem_cons_of_mem _ hp)
    obtain ⟨hlen, hplace, hrest⟩ := ih (k + 1) (acc.set x k) hnodup hlt'
    rw [List.zipIdx_cons, List.foldl_cons]
    refine ⟨hlen.trans List.length_set, ?_, ?_⟩
    · intro i p hi
      cases i with
      | zero =>
        -- no later element writes at `x` again
        rw [List.getElem?_cons_zero, Option.some_inj] at hi
        subst hi
        rw [hrest x hx, List.getElem?_set_self (hlt x List.mem_cons_self)]
        rfl
      | succ i =>
        rw [List.getElem?_cons_succ] at hi
        rw [hplace i p hi]
        congr 1
        omega
    · intro p hp
      obtain ⟨hpx, hpxs⟩ := not_or.mp (List.mem_cons.not.mp hp)
      rw [hrest p hpxs, List.getElem?_set_ne (Ne.symm hpx)]

end Permutation

namespace IsPermutation

/-- The inverse is as long. -/
theorem length_inverse (h : IsPermutation perm n) : (Permutation.inverse perm).length = n := by
  have hspec := Permutation.foldl_set_zipIdx perm 0 (List.replicate perm.length 0) h.nodup
    (by simpa [h.length_eq] using h.lt)
  exact hspec.1.trans (by rw [List.length_replicate, h.length_eq])

/-- **The inverse undoes the permutation.** -/
theorem getD_inverse (h : IsPermutation perm n) {i : ℕ} (hi : i < n) :
    (Permutation.inverse perm).getD (perm.getD i 0) 0 = i := by
  have hspec := Permutation.foldl_set_zipIdx perm 0 (List.replicate perm.length 0) h.nodup
    (by simpa [h.length_eq] using h.lt)
  have hi' : i < perm.length := by rw [h.length_eq]; exact hi
  have hplace := hspec.2.1 i (perm.getD i 0) (by
    rw [List.getD_eq_getElem _ _ hi']
    exact List.getElem?_eq_getElem hi')
  rw [List.getD_eq_getElem?_getD]
  change (Option.getD ((perm.zipIdx.foldl (fun inv (p, i) => inv.set p i)
    (List.replicate perm.length 0))[perm.getD i 0]?) 0) = i
  rw [hplace, Option.getD_some, Nat.zero_add]

/-- **The permutation undoes the inverse.** -/
theorem getD_getD_inverse (h : IsPermutation perm n) {p : ℕ} (hp : p < n) :
    perm.getD ((Permutation.inverse perm).getD p 0) 0 = p := by
  obtain ⟨i, hi, rfl⟩ := List.mem_iff_getElem.mp (h.mem_iff.mpr hp)
  have hin : i < n := by rw [← h.length_eq]; exact hi
  have hinv := h.getD_inverse hin
  rw [List.getD_eq_getElem _ _ hi] at hinv
  rw [hinv, List.getD_eq_getElem _ _ hi]

/-- The inverse is a permutation. -/
theorem inverse (h : IsPermutation perm n) : IsPermutation (Permutation.inverse perm) n where
  length_eq := h.length_inverse
  lt := by
    intro i hi
    obtain ⟨p, hp, rfl⟩ := List.mem_iff_getElem.mp hi
    rw [h.length_inverse] at hp
    obtain ⟨j, hj, hjp⟩ := List.mem_iff_getElem.mp (h.mem_iff.mpr hp)
    have hjn : j < n := by rw [← h.length_eq]; exact hj
    have hinv := h.getD_inverse hjn
    rw [List.getD_eq_getElem _ _ hj, hjp,
      List.getD_eq_getElem _ _ (by rw [h.length_inverse]; exact hp)] at hinv
    rw [hinv]
    exact hjn
  nodup := by
    rw [List.nodup_iff_injective_get]
    intro p q hpq
    have hp : (p : ℕ) < n := h.length_inverse ▸ p.isLt
    have hq : (q : ℕ) < n := h.length_inverse ▸ q.isLt
    have hget : (Permutation.inverse perm).getD p 0 = (Permutation.inverse perm).getD q 0 := by
      rw [List.getD_eq_getElem _ _ p.isLt, List.getD_eq_getElem _ _ q.isLt]
      exact hpq
    refine Fin.ext ?_
    rw [← h.getD_getD_inverse hp, hget, h.getD_getD_inverse hq]

end IsPermutation

/-! ## Composition -/

namespace Permutation

/-- The identity at a position. -/
theorem getD_range {i : ℕ} (hi : i < n) : (List.range n).getD i 0 = i := by
  rw [List.getD_eq_getElem _ _ (by simpa using hi), List.getElem_range]

/-- A composition at a position. -/
theorem getD_compose (outer : List ℕ) {inner : List ℕ} {i : ℕ} (hi : i < inner.length) :
    (compose outer inner).getD i 0 = outer.getD (inner.getD i 0) 0 := by
  rw [List.getD_eq_getElem _ _ (by simpa [compose] using hi), List.getD_eq_getElem _ _ hi]
  exact List.getElem_map _

/-- Composing with the identity changes nothing. -/
theorem compose_range (perm : List ℕ) : compose perm (List.range perm.length) = perm := by
  refine List.ext_getElem (by simp [compose]) ?_
  intro i hi hi'
  simp only [compose, List.getElem_map, List.getElem_range]
  exact List.getD_eq_getElem _ _ hi'

/-- The identity, composed with anything, is that. -/
theorem range_compose (h : ∀ p ∈ perm, p < n) : compose (List.range n) perm = perm := by
  refine List.map_congr_left (fun p hp => ?_) |>.trans (List.map_id perm)
  exact getD_range (h p hp)

/-- Composing is not refused if all elements are positions. -/
theorem compose?_eq (outer : List ℕ) {inner : List ℕ} (h : ∀ p ∈ inner, p < outer.length) :
    compose? outer inner = .ok (compose outer inner) := by
  refine if_pos (List.all_eq_true.mpr fun p hp => ?_)
  exact decide_eq_true (h p hp)

end Permutation

namespace IsPermutation

/-- Anything, composed with the identity, is that. -/
theorem compose_range (h : IsPermutation perm n) :
    Permutation.compose perm (List.range n) = perm := by
  rw [← h.length_eq, Permutation.compose_range]

/-- **Permutations can be composed.** -/
theorem compose {inner : List ℕ} (h : IsPermutation perm n) (hinner : IsPermutation inner n) :
    IsPermutation (Permutation.compose perm inner) n where
  length_eq := by rw [Permutation.compose, List.length_map, hinner.length_eq]
  lt := by
    intro p hp
    obtain ⟨i, hi, rfl⟩ := List.mem_map.mp hp
    exact h.getD_lt (hinner.lt i hi)
  nodup := by
    refine hinner.nodup.map_on ?_
    intro i hi j hj hij
    exact h.getD_inj (hinner.lt i hi) (hinner.lt j hj) hij

/-- A permutation undoes its inverse. -/
theorem compose_inverse (h : IsPermutation perm n) :
    Permutation.compose perm (Permutation.inverse perm) = List.range n := by
  refine List.ext_getElem (by simp [Permutation.compose, h.length_inverse]) ?_
  intro i hi hi'
  have hin : i < n := by simpa using hi'
  have hget := h.getD_getD_inverse hin
  rw [List.getD_eq_getElem (Permutation.inverse perm) 0 (by rwa [h.length_inverse])] at hget
  simp only [Permutation.compose, List.getElem_map, List.getElem_range]
  exact hget

end IsPermutation

end CnotSynthesis
