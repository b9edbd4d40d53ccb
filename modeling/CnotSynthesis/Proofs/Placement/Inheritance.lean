import CnotSynthesis.Proofs.Placement.Operators

/-! # What a new placement takes from the old ones

The operators draw a slice, some positions or an order, and make a placement of it. Here is what
they make, for every draw.

* **`Inherits keep fill positions child n`** — a child that is as `keep` at the given positions and
  lists the other genes in their order in `fill`.
* **`inherits_mixedChild`** — mixing two placements; **`sliceChild_eq_mixedChild`** — a slice is one
  choice of positions, so a child by slices is one by positions.
* **`Rearranges perm positions order child n`**, **`rearranges_rearranged`** — the genes at some
  positions rearranged.
* **`differing_swapAt`** — an exchange changes two positions.
* **`operators_spec`** — all four operators: what is drawn, what is made of it, and that no list is
  read or written outside its bounds. -/

namespace CnotSynthesis

/-- Below two qubits there is only one placement. -/
theorem IsPermutation.eq_range_of_lt_two {p : List ℕ} {n : ℕ} (h : IsPermutation p n)
    (hn : n < 2) : p = List.range n := by
  have hperm := h.perm_range
  interval_cases n
  · exact hperm.eq_nil
  · exact List.perm_singleton.mp hperm

namespace Placement

/-- The genes outside the given positions, in order. -/
def genesOutside (positions genes : List ℕ) : List ℕ :=
  genes.zipIdx.filterMap fun (g, i) => if i ∈ positions then none else some g

/-- The positions at which two placements differ. -/
def differing (p q : List ℕ) : List ℕ := (List.range p.length).filter fun i => q[i]? != p[i]?

/-- Where two placements differ. -/
theorem mem_differing {p q : List ℕ} {i : ℕ} :
    i ∈ differing p q ↔ i < p.length ∧ q[i]? ≠ p[i]? := by
  simp [differing]

/-- No position is listed twice. -/
theorem nodup_differing (p q : List ℕ) : (differing p q).Nodup := List.nodup_range.filter _

/-- **A child of two placements** of `n` qubits: as `keep` at the given positions, with the other
genes in their order in `fill`, and no slot left empty. -/
structure Inherits (keep fill positions child : List ℕ) (n : ℕ) : Prop where
  placement : IsPermutation child n
  kept : ∀ i ∈ positions, child[i]? = keep[i]?
  rest : genesOutside positions child = fill.filter fun g => ∀ i ∈ positions, keep[i]? ≠ some g
  placed : n < UInt64.size → unplaced ∉ child

/-- **A placement of `n` qubits with some genes rearranged**: the slot at each of the given
positions takes over the gene at another one of them, as the order says, and nothing else
changes. -/
structure Rearranges (perm positions order child : List ℕ) (n : ℕ) : Prop where
  placement : IsPermutation child n
  moved : ∀ x ∈ positions.zip order, x.1 < n ∧
    ∃ source, positions[x.2]? = some source ∧ source < n ∧ child[x.1]? = perm[source]?
  same : ∀ i ∉ positions, child[i]? = perm[i]?
  differing_le : (differing perm child).length ≤ positions.length

variable {p q : List ℕ} {n : ℕ}

/-- A placement of as many qubits as can be numbered has no empty slot. -/
theorem unplaced_notMem (h : IsPermutation p n) (hn : n < UInt64.size) : unplaced ∉ p := by
  intro hmem
  have hlt := h.lt unplaced hmem
  unfold unplaced at hlt
  omega

/-! ## Filling slots -/

/-- A slot that is not empty keeps its gene. -/
theorem getElem?_fillSlots {slots : List (Option ℕ)} {i g : ℕ} (h : slots[i]? = some (some g))
    (genes : List ℕ) : (fillSlots slots genes)[i]? = some g := by
  fun_induction fillSlots slots genes generalizing i with
  | case1 => cases h
  | case2 x slots genes ih =>
    cases i with
    | zero => simpa using h
    | succ i => exact ih h
  | case3 slots ih =>
    cases i with
    | zero => cases h
    | succ i => exact ih h
  | case4 slots x genes ih =>
    cases i with
    | zero => cases h
    | succ i => exact ih h

/-- **As many genes as empty slots**: the empty slots take the genes in order. -/
theorem filterMap_fillSlots {slots : List (Option ℕ)} {genes : List ℕ}
    (h : genes.length = slots.countP Option.isNone) :
    ((fillSlots slots genes).zip slots).filterMap
      (fun x => if x.2.isNone then some x.1 else none) = genes := by
  fun_induction fillSlots slots genes with
  | case1 genes => exact (List.eq_nil_of_length_eq_zero h).symm
  | case2 g slots genes ih =>
    have h : genes.length = slots.countP Option.isNone := by simpa using h
    simpa using ih h
  | case3 slots ih => simp at h
  | case4 slots g genes ih =>
    have h : genes.length = slots.countP Option.isNone := by simpa using h
    simpa using ih h

/-! ## Children -/

/-- The genes held by slots are those of the placement at the given positions. -/
theorem mem_slotsAt (hq : IsPermutation q n) {positions : List ℕ} {g : ℕ} :
    g ∈ (slotsAt n q positions).filterMap id ↔ ∃ i ∈ positions, q[i]? = some g := by
  unfold slotsAt
  rw [List.filterMap_map, List.mem_filterMap]
  constructor
  · rintro ⟨i, _, hi⟩
    rw [Function.comp_apply, id] at hi
    split at hi
    · next hmem => exact ⟨i, hmem, hi⟩
    · cases hi
  · rintro ⟨i, hmem, hi⟩
    have hlt : i < q.length := (List.getElem?_eq_some_iff.mp hi).1
    refine ⟨i, List.mem_range.mpr (by rwa [← hq.length_eq]), ?_⟩
    rw [Function.comp_apply, id, if_pos hmem, hi]

/-- **Mixing two placements**: the genes of `q` at the given positions, the others as in `p`. -/
theorem inherits_mixedChild (hp : IsPermutation p n) (hq : IsPermutation q n) {positions : List ℕ}
    (hlt : ∀ i ∈ positions, i < n) : Inherits q p positions (mixedChild p q positions) n := by
  have hchild := isPermutation_mixedChild hp hq positions
  have hget : ∀ i, i < n → ∃ g, q[i]? = some g := fun i hi =>
    ⟨_, List.getElem?_eq_getElem (by rwa [hq.length_eq])⟩
  refine ⟨hchild, ?_, ?_, unplaced_notMem hchild⟩
  · intro i hi
    obtain ⟨g, hg⟩ := hget i (hlt i hi)
    rw [mixedChild_eq hp, hg]
    refine getElem?_fillSlots ?_ _
    rw [slotsAt, List.getElem?_map, List.getElem?_range (hlt i hi), Option.map_some, if_pos hi, hg]
  · have hfill := filterMap_fillSlots ((slotsFor_slotsAt hq positions).length_freshGenes hp)
    rw [← mixedChild_eq hp, freshGenes_eq_filter hp.nodup] at hfill
    -- a slot is empty exactly if its position is not among the given ones
    have hempty : genesOutside positions (mixedChild p q positions) =
        ((mixedChild p q positions).zip (slotsAt n q positions)).filterMap
          (fun x => if x.2.isNone then some x.1 else none) := by
      unfold genesOutside slotsAt
      rw [List.zip_map_right, List.filterMap_map, List.zipIdx_eq_zip_range', hchild.length_eq,
        ← List.range_eq_range']
      refine List.filterMap_congr fun x hx => ?_
      obtain ⟨g, hg⟩ := hget x.2 (List.mem_range.mp (List.of_mem_zip hx).2)
      by_cases hmem : x.2 ∈ positions <;> simp [hmem, hg]
    rw [hempty, hfill]
    refine List.filter_congr fun g _ => ?_
    rw [Bool.eq_iff_iff, Bool.not_eq_true', ← Bool.not_eq_true, List.contains_iff_mem,
      mem_slotsAt hq, decide_eq_true_eq]
    push Not
    rfl

/-- **A child by slices**: the slice of `p`, the other genes as in `q`. -/
theorem inherits_sliceChild (hp : IsPermutation p n) (hq : IsPermutation q n) {start stop : ℕ}
    (hstop : stop ≤ n) :
    Inherits p q (List.range' start (stop - start)) (sliceChild p q start stop) n := by
  rw [sliceChild_eq_mixedChild hp hq]
  refine inherits_mixedChild hq hp fun i hi => ?_
  rw [List.mem_range'_1] at hi
  omega

/-! ## Rearrangements -/

/-- Writing at distinct positions: each holds what was written there, the others what they held. -/
theorem getElem?_foldl_set (f : ℕ → ℕ) (positions : List ℕ) : ∀ (order xs : List ℕ),
    positions.Nodup → (∀ i ∈ positions, i < xs.length) →
    let out := (positions.zip order).foldl (fun out x => out.set x.1 (f x.2)) xs
    (∀ x ∈ positions.zip order, out[x.1]? = some (f x.2)) ∧ ∀ i ∉ positions, out[i]? = xs[i]? := by
  induction positions with
  | nil => exact fun order xs _ _ => ⟨by simp, fun _ _ => rfl⟩
  | cons i positions ih =>
    intro order xs hnodup hlt
    cases order with
    | nil => exact ⟨by simp, fun _ _ => rfl⟩
    | cons k order =>
      obtain ⟨hi, hnodup⟩ := List.nodup_cons.mp hnodup
      obtain ⟨hwritten, hsame⟩ := ih order (xs.set i (f k)) hnodup
        (by simpa using fun j hj => hlt j (List.mem_cons_of_mem _ hj))
      refine ⟨?_, ?_⟩
      · intro x hx
        rcases List.mem_cons.mp hx with rfl | hx
        · -- nothing is written at the first position again
          exact (hsame i hi).trans (List.getElem?_set_self (hlt i List.mem_cons_self))
        · exact hwritten x hx
      · intro j hj
        obtain ⟨hji, hj⟩ := not_or.mp (List.mem_cons.not.mp hj)
        exact (hsame j hj).trans (List.getElem?_set_ne (Ne.symm hji))

/-- **The genes at distinct positions rearranged**: nothing else changes. -/
theorem rearranges_rearranged (hp : IsPermutation p n) {positions order : List ℕ} {k : ℕ}
    (hpositions : IsSample positions n k) (horder : order.Perm (List.range k)) :
    Rearranges p positions order (rearranged p positions order) n := by
  have hlt : ∀ i ∈ positions, i < p.length := by rw [hp.length_eq]; exact hpositions.lt
  obtain ⟨hwritten, hsame⟩ := getElem?_foldl_set (fun k => p.getD (positions.getD k 0) 0) positions
    order p hpositions.nodup hlt
  refine ⟨?_, ?_, hsame, ?_⟩
  · rw [← hpositions.length_eq] at horder
    exact hp.of_perm (rearranged_perm hpositions.nodup hlt horder)
  · intro x hx
    obtain ⟨hslot, hk⟩ := List.of_mem_zip hx
    have hk : x.2 < positions.length := by
      rw [hpositions.length_eq]
      exact List.mem_range.mp (horder.mem_iff.mp hk)
    have hsource := List.getElem_mem hk
    refine ⟨hpositions.lt _ hslot, positions[x.2], List.getElem?_eq_getElem hk,
      hpositions.lt _ hsource, ?_⟩
    have hwritten := hwritten x hx
    rw [List.getD_eq_getElem _ _ hk, List.getD_eq_getElem _ _ (hlt _ hsource)] at hwritten
    exact hwritten.trans (List.getElem?_eq_getElem _).symm
  · refine (List.subperm_of_subset (nodup_differing p _) fun i hi => ?_).length_le
    by_contra hout
    exact (mem_differing.mp hi).2 (hsame i hout)

/-- **Two genes exchanged**: the placement changes at their positions and nowhere else. -/
theorem differing_swapAt (hp : IsPermutation p n) {i j : ℕ} (hi : i < n) (hj : j < n)
    (hij : i ≠ j) : (differing p (swapAt p i j)).Perm [i, j] := by
  rw [← hp.length_eq] at hi hj
  have hne : p[i] ≠ p[j] := fun heq => hij ((hp.nodup.getElem_inj_iff).mp heq)
  have hswap : swapAt p i j = (p.set i p[j]).set j p[i] := by
    unfold swapAt
    rw [List.getElem?_eq_getElem hi, List.getElem?_eq_getElem hj]
  refine (List.perm_ext_iff_of_nodup (nodup_differing p _) (by simpa using hij)).mpr ?_
  intro m
  rw [mem_differing, hswap, List.mem_cons, List.mem_singleton]
  by_cases hmj : m = j
  · subst hmj
    simp [hj, hne]
  · rw [List.getElem?_set_ne (Ne.symm hmj)]
    by_cases hmi : m = i
    · subst hmi
      simp [hi, hne.symm]
    · rw [List.getElem?_set_ne (Ne.symm hmi)]
      simp [hmi, hmj]

/-! ## What is drawn -/

/-- A slice begins in the first half and ends before the last position. -/
theorem always_sliceBounds (hn : 2 ≤ n) :
    Draw.Always (fun bounds => bounds.1 < n / 2 ∧ bounds.1 ≤ bounds.2 ∧ bounds.2 < n)
      (sliceBounds n) := by
  refine (Draw.always_below (by omega)).bind fun start hstart => ?_
  refine (Draw.always_below (by omega)).bind fun length hlength => Draw.always_pure ?_
  dsimp only
  omega

/-- Children by slices: the slice begins in the first half and ends before the last position. With
fewer than two qubits there is only one placement. -/
theorem always_crossSlice_eq (hp : IsPermutation p n) (hq : IsPermutation q n) :
    Draw.Always (fun child => ∃ start stop, start ≤ stop ∧ stop ≤ n ∧
      (2 ≤ n → start < n / 2 ∧ stop < n) ∧ child = sliceChild p q start stop) (crossSlice p q) := by
  unfold crossSlice
  rw [hp.length_eq]
  split
  · next hn =>
    refine Draw.always_pure ⟨0, 0, le_rfl, n.zero_le, fun h => absurd h (by omega), ?_⟩
    have hchild := isPermutation_sliceChild hp hq 0 0
    exact (hp.eq_range_of_lt_two hn).trans (hchild.eq_range_of_lt_two hn).symm
  · next hn =>
    refine (always_sliceBounds (by omega)).bind fun bounds hbounds => Draw.always_pure ?_
    exact ⟨bounds.1, bounds.2, hbounds.2.1, by omega, fun _ => ⟨hbounds.1, hbounds.2.2⟩, rfl⟩

/-- **No gene of a slice or of the second placement is out of range.** -/
theorem crossSlice?_eq (hp : IsPermutation p n) (hq : IsPermutation q n) :
    crossSlice? p q = Except.ok <$> crossSlice p q := by
  have hall : ∀ start stop, (((p.take stop).drop start) ++ q).all (· < p.length) = true := by
    intro start stop
    rw [hp.length_eq, List.all_eq_true]
    intro g hg
    rcases List.mem_append.mp hg with hg | hg
    · exact decide_eq_true (hp.lt g (List.mem_of_mem_take (List.mem_of_mem_drop hg)))
    · exact decide_eq_true (hq.lt g hg)
  unfold crossSlice? crossSlice
  split
  · rfl
  · simp only [hall, if_true]
    rfl

/-- Genes that are positions are no strays. -/
theorem meetsStray_eq_false {size : ℕ} (used : List ℕ) (need : ℕ) {genes : List ℕ}
    (h : ∀ g ∈ genes, g < size) : meetsStray size used need genes = false := by
  fun_induction meetsStray size used need genes with
  | case1 => rfl
  | case2 => rfl
  | case3 need g rest hstray => exact absurd (h g List.mem_cons_self) (by omega)
  | case4 need g rest _ _ ih => exact ih fun x hx => h x (List.mem_cons_of_mem _ hx)
  | case5 need g rest _ _ ih => exact ih fun x hx => h x (List.mem_cons_of_mem _ hx)

/-- **No gene that is copied or looked at is out of range.** -/
theorem crossPositions?_eq (hp : IsPermutation p n) (hq : IsPermutation q n) (k : ℕ) :
    crossPositions? p q k = Except.ok <$> crossPositions p q k := by
  unfold crossPositions? crossPositions
  rw [hp.length_eq, map_bind]
  refine (Draw.always_sample (Nat.min_le_right k n)).bind_congr fun positions hpositions => ?_
  have hcopied : (positions.map fun i => q.getD i unplaced).any (n ≤ ·) = false := by
    rw [List.any_map, List.any_eq_false]
    intro i hi
    have hi : i < q.length := by rw [hq.length_eq]; exact hpositions.lt i hi
    rw [Function.comp_apply, List.getD_eq_getElem _ _ hi, decide_eq_true_eq, Nat.not_le]
    exact hq.lt _ (List.getElem_mem hi)
  dsimp only
  rw [hcopied, meetsStray_eq_false _ _ hp.lt]
  rfl

/-- Rearranged genes: the positions are a sample, and their order is shuffled. -/
theorem always_mutateShuffle_eq (hp : IsPermutation p n) (k : ℕ) :
    Draw.Always (fun child => ∃ positions order, IsSample positions n (min k n) ∧
      order.Perm (List.range (min k n)) ∧ child = rearranged p positions order)
      (mutateShuffle p k) := by
  unfold mutateShuffle
  rw [hp.length_eq]
  refine (Draw.always_sample (Nat.min_le_right k n)).bind fun positions hpositions => ?_
  refine (Draw.always_shuffle _).bind fun order horder => Draw.always_pure ?_
  exact ⟨positions, order, hpositions, horder, rfl⟩

/-- Exchanged genes: the two positions are different. -/
theorem always_mutateSwap_eq (hp : IsPermutation p n) (hn : 2 ≤ n) :
    Draw.Always (fun child => ∃ i j, i < n ∧ j < n ∧ i ≠ j ∧ child = swapAt p i j)
      (mutateSwap p) := by
  unfold mutateSwap
  rw [hp.length_eq, if_neg (by omega)]
  refine (Draw.always_sample hn).bind fun picks hpicks => Draw.always_pure ?_
  obtain ⟨i, j, rfl⟩ := List.length_eq_two.mp hpicks.length_eq
  refine ⟨i, j, hpicks.lt i (by simp), hpicks.lt j (by simp), ?_, rfl⟩
  simpa using hpicks.nodup

/-- **The operators on placements**, for all placements `p` and `q` of `n` qubits, every number `k`
and every draw. Each part says what an operator makes of any draw, that nothing else is made, and
where the operator reads or writes:

* a child by slices is as `p` on a slice, with the other genes as in `q`;
* a child by positions is as `q` at `min k n` positions, with the other genes as in `p`;
* shuffling rearranges the genes at `min k n` positions, so at most these change;
* an exchange changes two positions, if there are two. -/
theorem operators_spec (hp : IsPermutation p n) (hq : IsPermutation q n) (k : ℕ) :
    ((∀ start stop, start ≤ stop → stop ≤ n →
        Inherits p q (List.range' start (stop - start)) (sliceChild p q start stop) n) ∧
      Draw.Always (fun child => ∃ start stop, start ≤ stop ∧ stop ≤ n ∧
        (2 ≤ n → start < n / 2 ∧ stop < n) ∧ child = sliceChild p q start stop)
        (crossSlice p q) ∧
      crossSlice? p q = Except.ok <$> crossSlice p q) ∧
    ((∀ positions, IsSample positions n (min k n) →
        Inherits q p positions (mixedChild p q positions) n) ∧
      Draw.Always (fun child => ∃ positions, IsSample positions n (min k n) ∧
        child = mixedChild p q positions) (crossPositions p q k) ∧
      crossPositions? p q k = Except.ok <$> crossPositions p q k) ∧
    ((∀ positions order, IsSample positions n (min k n) →
        order.Perm (List.range (min k n)) →
        Rearranges p positions order (rearranged p positions order) n) ∧
      Draw.Always (fun child => ∃ positions order, IsSample positions n (min k n) ∧
        order.Perm (List.range (min k n)) ∧ child = rearranged p positions order)
        (mutateShuffle p k)) ∧
    (∀ i j, i < n → j < n → i ≠ j → IsPermutation (swapAt p i j) n ∧
        (differing p (swapAt p i j)).Perm [i, j]) ∧
      (2 ≤ n → Draw.Always (fun child => ∃ i j, i < n ∧ j < n ∧ i ≠ j ∧
        child = swapAt p i j) (mutateSwap p)) ∧
      (n < 2 → Draw.Always (· = p) (mutateSwap p)) := by
  refine ⟨⟨?_, always_crossSlice_eq hp hq, crossSlice?_eq hp hq⟩,
    ⟨?_, ?_, crossPositions?_eq hp hq k⟩, ⟨?_, always_mutateShuffle_eq hp k⟩, ?_,
    always_mutateSwap_eq hp, ?_⟩
  · exact fun start stop _ hstop => inherits_sliceChild hp hq hstop
  · exact fun positions h => inherits_mixedChild hp hq h.lt
  · unfold crossPositions
    rw [hp.length_eq]
    exact (Draw.always_sample (Nat.min_le_right k n)).bind fun positions h =>
      Draw.always_pure ⟨positions, h, rfl⟩
  · exact fun positions order h horder => rearranges_rearranged hp h horder
  · exact fun i j hi hj hij =>
      ⟨hp.of_perm (swapAt_perm p i j), differing_swapAt hp hi hj hij⟩
  · intro hn
    unfold mutateSwap
    rw [hp.length_eq, if_pos hn]
    exact Draw.always_pure rfl

/-- Two placements of four qubits: the middle slice, the third and the first position, the last and
the first gene exchanged by shuffling, the first and the third exchanged. -/
theorem operators_spec_four :
    let p := [2, 0, 3, 1]
    let q := [1, 3, 0, 2]
    IsPermutation p 4 ∧ IsPermutation q 4 ∧ Inherits p q [1, 2] [1, 0, 3, 2] 4 ∧
      Inherits q p [2, 0] [1, 2, 0, 3] 4 ∧ Rearranges p [3, 0] [1, 0] [1, 0, 3, 2] 4 ∧
      (differing p [3, 0, 2, 1]).Perm [0, 2] := by
  intro p q
  have hp : IsPermutation p 4 := by decide
  have hq : IsPermutation q 4 := by decide
  obtain ⟨⟨hslice, _⟩, ⟨hmixed, _⟩, ⟨hshuffle, _⟩, hswap, _⟩ := operators_spec hp hq 2
  exact ⟨hp, hq, hslice 1 3 (by decide) (by decide), hmixed [2, 0] ⟨by decide, by decide, rfl⟩,
    hshuffle [3, 0] [1, 0] ⟨by decide, by decide, rfl⟩ (by decide),
    (hswap 0 2 (by decide) (by decide) (by decide)).2⟩

end Placement

end CnotSynthesis
