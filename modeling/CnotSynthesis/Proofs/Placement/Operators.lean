import CnotSynthesis.Placement.Operators
import CnotSynthesis.Proofs.Permutation

/-! # New placements are placements

* **`Draw.Always P d`** — whatever is drawn, from any dice, the value satisfies `P`.
* **`Draw.always_below`**, **`Draw.always_shuffle`**, **`Draw.always_sample`**,
  **`Draw.always_weighted`** — the ranges of the dice as ranges of draws.
* **`Placement.fillSlots_perm`** — filling slots uses every gene once;
  **`Placement.SlotsFor.length_freshGenes`** — there are as many genes as slots to be filled.
* **`Placement.isPermutation_mixedChild`** — the child of two placements is a placement, wherever
  its genes are taken from; **`Placement.sliceChild_eq_mixedChild`** — slices are one choice of
  positions.
* **`Placement.rearranged_perm`** — rearranging the genes at some positions. -/

namespace CnotSynthesis

namespace Draw

variable {α β : Type}

/-- Whatever the dice show, the value drawn satisfies `P`. -/
def Always (P : α → Prop) (d : Draw α) : Prop := ∀ g, P (d g).1

/-- A value that is not drawn. -/
theorem always_pure {P : α → Prop} {a : α} (h : P a) : Always P (pure a) := fun _ => h

/-- One draw after the other. -/
theorem Always.bind {P : α → Prop} {Q : β → Prop} {d : Draw α} {f : α → Draw β} (h : Always P d)
    (hf : ∀ a, P a → Always Q (f a)) : Always Q (d >>= f) :=
  fun g => hf _ (h g) _

/-- What follows may be replaced by what is the same for every value drawn. -/
theorem Always.bind_congr {P : α → Prop} {d : Draw α} {f f' : α → Draw β} (h : Always P d)
    (hf : ∀ a, P a → f a = f' a) : d >>= f = d >>= f' :=
  funext fun g => congrFun (hf _ (h g)) _

/-- What is drawn first may be anything. -/
theorem always_bind {Q : β → Prop} {d : Draw α} {f : α → Draw β} (hf : ∀ a, Always Q (f a)) :
    Always Q (d >>= f) :=
  fun _ => hf _ _

/-! ## Choices in their ranges -/

/-- What the dice never leave, no draw leaves. -/
theorem always_roll {P : α → Prop} {choice : Dice → Reading α} (h : ∀ d s, P (choice d s).1) :
    Always P (roll choice) :=
  fun g => h g.dice g.stream

/-- **A number below a bound.** -/
theorem always_below {n : ℕ} (hn : 0 < n) : Always (· < n) (below n) :=
  always_roll fun d => d.below_lt hn

/-- **Shuffling rearranges.** -/
theorem always_shuffle (xs : List ℕ) : Always (·.Perm xs) (shuffle xs) :=
  always_roll fun d => d.shuffle_perm xs

/-- A shuffled range is a permutation. -/
theorem always_permutation (n : ℕ) : Always (IsPermutation · n) (Draw.permutation n) :=
  fun g => (isPermutation_range n).of_perm (always_shuffle (List.range n) g)

/-- **Sampled positions are distinct.** -/
theorem always_sample {length amount : ℕ} (h : amount ≤ length) :
    Always (IsSample · length amount) (sample length amount) :=
  always_roll fun d => d.isSample_sample h

/-- **A weighted choice is one of those offered.** -/
theorem always_weighted {weights : List Float} (h : weights ≠ []) :
    Always (· < weights.length) (weighted weights) :=
  always_roll fun d => d.weighted_lt h

/-- What holds of one draw holds of all of them. -/
theorem always_times {P : α → Prop} {d : Draw α} (h : Always P d) (n : ℕ) :
    Always (fun xs => ∀ x ∈ xs, P x) (Draw.times d n) := by
  induction n with
  | zero => exact always_pure (by simp)
  | succ n ih =>
    refine h.bind fun a ha => ih.bind fun rest hrest => always_pure ?_
    intro x hx
    rcases List.mem_cons.mp hx with rfl | hx
    · exact ha
    · exact hrest x hx

/-- As many values as draws. -/
theorem always_times_length (d : Draw α) (k : ℕ) :
    Always (fun xs => xs.length = k) (Draw.times d k) := by
  induction k with
  | zero => exact always_pure rfl
  | succ k ih =>
    exact always_bind fun a => ih.bind fun rest hrest => always_pure (congrArg (· + 1) hrest)

end Draw

namespace Placement

/-! ## Filling slots -/

/-- A slot is empty or holds a gene. -/
theorem countP_isNone_add_length (slots : List (Option ℕ)) :
    slots.countP Option.isNone + (slots.filterMap id).length = slots.length := by
  induction slots with
  | nil => rfl
  | cons slot slots ih =>
    cases slot with
    | none =>
      rw [List.countP_cons_of_pos rfl, List.filterMap_cons_none rfl, List.length_cons]
      omega
    | some g =>
      have hid : id (some g) = some g := rfl
      rw [List.countP_cons_of_neg (by simp), List.filterMap_cons_some hid, List.length_cons,
        List.length_cons]
      omega

/-- **As many genes as empty slots**: the result holds the genes of the slots and the new ones. -/
theorem fillSlots_perm (slots : List (Option ℕ)) : ∀ genes : List ℕ,
    genes.length = slots.countP Option.isNone →
    (fillSlots slots genes).Perm (slots.filterMap id ++ genes) := by
  induction slots with
  | nil =>
    intro genes h
    rw [List.eq_nil_of_length_eq_zero h]
    exact List.Perm.refl _
  | cons slot slots ih =>
    intro genes h
    cases slot with
    | some g =>
      have h : genes.length = slots.countP Option.isNone := by simpa using h
      exact (ih genes h).cons g
    | none =>
      cases genes with
      | nil => simp at h
      | cons g genes =>
        have h : genes.length = slots.countP Option.isNone := by simpa using h
        exact ((ih genes h).cons g).trans List.perm_middle.symm

/-- Without repetitions, the fresh genes are those that are not used. -/
theorem freshGenes_eq_filter {genes : List ℕ} (h : genes.Nodup) (used : List ℕ) :
    freshGenes used genes = genes.filter fun g => !used.contains g := by
  induction genes generalizing used with
  | nil => rfl
  | cons g rest ih =>
    obtain ⟨hg, hrest⟩ := List.nodup_cons.mp h
    unfold freshGenes
    rw [List.filter_cons]
    split
    · next hused =>
      rw [ih hrest, if_neg (by simpa using hused)]
    · next hfresh =>
      rw [ih hrest, if_pos (by simpa using hfresh)]
      congr 1
      -- marking `g` as used changes nothing for the others
      refine List.filter_congr fun x hx => ?_
      have hne : x ≠ g := fun heq => hg (heq ▸ hx)
      simp [hne]

/-- Genes out of a permutation, followed by the fresh ones, are all genes. -/
theorem append_freshGenes_perm {used genes : List ℕ} (hused : used.Nodup) (hgenes : genes.Nodup)
    (hsub : ∀ g ∈ used, g ∈ genes) : (used ++ freshGenes used genes).Perm genes := by
  have hperm : used.Perm (genes.filter fun g => used.contains g) := by
    refine (List.perm_ext_iff_of_nodup hused (hgenes.filter _)).mpr ?_
    intro g
    rw [List.mem_filter, List.contains_iff_mem]
    exact ⟨fun hg => ⟨hsub g hg, hg⟩, fun hg => hg.2⟩
  rw [freshGenes_eq_filter hgenes]
  exact (hperm.append_right _).trans (List.filter_append_perm _ genes)

/-! ## Children -/

/-- **Slots for `n` genes**, some of which hold distinct ones. -/
structure SlotsFor (n : ℕ) (slots : List (Option ℕ)) : Prop where
  length_eq : slots.length = n
  nodup : (slots.filterMap id).Nodup
  lt : ∀ g ∈ slots.filterMap id, g < n

namespace SlotsFor

variable {slots : List (Option ℕ)} {genes : List ℕ} {n : ℕ}

/-- The genes held and the fresh ones are all genes. -/
theorem append_freshGenes_perm (h : SlotsFor n slots) (hgenes : IsPermutation genes n) :
    (slots.filterMap id ++ freshGenes (slots.filterMap id) genes).Perm genes :=
  Placement.append_freshGenes_perm h.nodup hgenes.nodup fun g hg => hgenes.mem_iff.mpr (h.lt g hg)

/-- **There are as many fresh genes as empty slots.** -/
theorem length_freshGenes (h : SlotsFor n slots) (hgenes : IsPermutation genes n) :
    (freshGenes (slots.filterMap id) genes).length = slots.countP Option.isNone := by
  have hsum := (h.append_freshGenes_perm hgenes).length_eq
  rw [List.length_append, hgenes.length_eq] at hsum
  have hslots := countP_isNone_add_length slots
  rw [h.length_eq] at hslots
  omega

/-- **Slots filled with the fresh genes** make a placement. -/
theorem isPermutation_fillSlots (h : SlotsFor n slots) (hgenes : IsPermutation genes n) :
    IsPermutation (fillSlots slots (freshGenes (slots.filterMap id) genes)) n :=
  hgenes.of_perm ((fillSlots_perm slots _ (h.length_freshGenes hgenes)).trans
    (h.append_freshGenes_perm hgenes))

end SlotsFor

/-- Slots for `n` genes that hold those of `best` at the given positions. -/
def slotsAt (n : ℕ) (best positions : List ℕ) : List (Option ℕ) :=
  (List.range n).map fun i => if i ∈ positions then best[i]? else none

/-- Genes copied from a placement leave slots for the others. -/
theorem slotsFor_slotsAt {best : List ℕ} {n : ℕ} (hbest : IsPermutation best n)
    (positions : List ℕ) : SlotsFor n (slotsAt n best positions) := by
  have hgene : ∀ {i g : ℕ}, g ∈ (if i ∈ positions then best[i]? else none) →
      best[i]? = some g := by
    intro i g hg
    split at hg
    · exact hg
    · cases hg
  unfold slotsAt
  refine ⟨by rw [List.length_map, List.length_range], ?_, ?_⟩
  · rw [List.filterMap_map]
    refine List.nodup_range.filterMap ?_
    intro i j g hi hj
    have hi := hgene hi
    have hlt : i < best.length := (List.getElem?_eq_some_iff.mp hi).1
    exact (List.getElem?_inj hlt hbest.nodup).mp (hi.trans (hgene hj).symm)
  · intro g hg
    rw [List.filterMap_map] at hg
    obtain ⟨i, _, hi⟩ := List.mem_filterMap.mp hg
    exact hbest.lt g (List.mem_of_getElem? (hgene hi))

/-- A mixture fills the slots at the given positions with the genes of the second placement. -/
theorem mixedChild_eq {particle : List ℕ} {n : ℕ} (hparticle : IsPermutation particle n)
    (best positions : List ℕ) :
    mixedChild particle best positions = fillSlots (slotsAt n best positions)
      (freshGenes ((slotsAt n best positions).filterMap id) particle) := by
  unfold mixedChild slotsAt
  simp only [hparticle.length_eq, freshGenes_eq_filter hparticle.nodup, List.contains_iff_mem]

/-- **A mixture of two placements is a placement**, wherever the genes of the second go. -/
theorem isPermutation_mixedChild {particle best : List ℕ} {n : ℕ}
    (hparticle : IsPermutation particle n) (hbest : IsPermutation best n) (positions : List ℕ) :
    IsPermutation (mixedChild particle best positions) n := by
  rw [mixedChild_eq hparticle]
  exact (slotsFor_slotsAt hbest positions).isPermutation_fillSlots hparticle

/-- **A slice is a choice of positions**: a child by slices is a mixture in which the first
placement gives the genes at the positions of the slice. -/
theorem sliceChild_eq_mixedChild {first second : List ℕ} {n : ℕ} (hfirst : IsPermutation first n)
    (hsecond : IsPermutation second n) (start stop : ℕ) :
    sliceChild first second start stop =
      mixedChild second first (List.range' start (stop - start)) := by
  have hslots :
      (first.zipIdx.map fun x => if start ≤ x.2 ∧ x.2 < stop then some x.1 else none) =
        slotsAt n first (List.range' start (stop - start)) := by
    refine List.ext_getElem (by simp [slotsAt, hfirst.length_eq]) ?_
    intro i hi _
    have hi : i < first.length := by simpa using hi
    have hmem : i ∈ List.range' start (stop - start) ↔ start ≤ i ∧ i < stop := by
      rw [List.mem_range'_1]
      omega
    simp only [slotsAt, List.getElem_map, List.getElem_zipIdx, List.getElem_range, Nat.zero_add,
      hmem, List.getElem?_eq_getElem hi]
  rw [mixedChild_eq hsecond, ← hslots]
  rfl

/-- **The child of two placements is a placement.** -/
theorem isPermutation_sliceChild {first second : List ℕ} {n : ℕ} (hfirst : IsPermutation first n)
    (hsecond : IsPermutation second n) (start stop : ℕ) :
    IsPermutation (sliceChild first second start stop) n := by
  rw [sliceChild_eq_mixedChild hfirst hsecond]
  exact isPermutation_mixedChild hsecond hfirst _

/-- A child by slices is a placement. -/
theorem always_crossSlice {first second : List ℕ} {n : ℕ} (hfirst : IsPermutation first n)
    (hsecond : IsPermutation second n) :
    Draw.Always (IsPermutation · n) (crossSlice first second) := by
  unfold crossSlice
  split
  · exact Draw.always_pure hfirst
  · exact Draw.always_bind fun bounds =>
      Draw.always_pure (isPermutation_sliceChild hfirst hsecond bounds.1 bounds.2)

/-- A child by positions is a placement. -/
theorem always_crossPositions {particle best : List ℕ} {n : ℕ}
    (hparticle : IsPermutation particle n)
    (hbest : IsPermutation best n) (k : ℕ) :
    Draw.Always (IsPermutation · n) (crossPositions particle best k) :=
  Draw.always_bind fun positions =>
    Draw.always_pure (isPermutation_mixedChild hparticle hbest positions)

/-! ## Rearranging -/

section Rearranging

open scoped List

/-- An element replaced: the old one and the new list are the new one and the old list. -/
theorem getD_cons_set_perm {xs : List ℕ} {i : ℕ} (hi : i < xs.length) (a : ℕ) :
    (xs.getD i 0 :: xs.set i a).Perm (a :: xs) := by
  rw [List.getD_eq_getElem _ _ hi]
  have hset : (xs.set i a).Perm (a :: xs.eraseIdx i) := List.set_perm_cons_eraseIdx hi a
  have herase : (xs[i] :: xs.eraseIdx i).Perm xs := List.getElem_cons_eraseIdx_perm hi
  calc xs[i] :: xs.set i a ~ xs[i] :: a :: xs.eraseIdx i := hset.cons _
    _ ~ a :: xs[i] :: xs.eraseIdx i := List.Perm.swap _ _ _
    _ ~ a :: xs := herase.cons a

/-- Writing at distinct positions: what was there and the new list are what was written and the old
list. -/
theorem foldl_set_perm (f : ℕ → ℕ) (positions : List ℕ) : ∀ (order xs : List ℕ),
    positions.length = order.length → positions.Nodup → (∀ p ∈ positions, p < xs.length) →
    (positions.map (xs.getD · 0) ++
      (positions.zip order).foldl (fun out x => out.set x.1 (f x.2)) xs).Perm
      (order.map f ++ xs) := by
  induction positions with
  | nil =>
    intro order xs hlength _ _
    rw [List.length_eq_zero_iff.mp hlength.symm]
    exact List.Perm.refl xs
  | cons p positions ih =>
    intro order xs hlength hnodup hlt
    obtain ⟨k, order, rfl⟩ : ∃ k rest, order = k :: rest :=
      List.exists_cons_of_length_eq_add_one hlength.symm
    obtain ⟨hp, hnodup⟩ := List.nodup_cons.mp hnodup
    have hplt := hlt p List.mem_cons_self
    have hrest := ih order (xs.set p (f k)) (by simpa using hlength) hnodup
      (by simpa using fun q hq => hlt q (List.mem_cons_of_mem _ hq))
    -- no later position is the one just written
    have hsame : positions.map ((xs.set p (f k)).getD · 0) = positions.map (xs.getD · 0) := by
      refine List.map_congr_left fun q hq => ?_
      have hne : p ≠ q := fun heq => hp (heq ▸ hq)
      simp [List.getD_eq_getElem?_getD, List.getElem?_set_ne hne]
    rw [hsame] at hrest
    rw [List.map_cons, List.zip_cons_cons, List.foldl_cons, List.map_cons, List.cons_append]
    calc xs.getD p 0 :: (positions.map (xs.getD · 0) ++
          (positions.zip order).foldl (fun out x => out.set x.1 (f x.2)) (xs.set p (f k)))
        ~ xs.getD p 0 :: (order.map f ++ xs.set p (f k)) := hrest.cons _
      _ ~ order.map f ++ xs.getD p 0 :: xs.set p (f k) := List.perm_middle.symm
      _ ~ order.map f ++ f k :: xs := (getD_cons_set_perm hplt (f k)).append_left _
      _ ~ f k :: (order.map f ++ xs) := List.perm_middle

/-- **The genes at distinct positions, rearranged**, are the same genes. -/
theorem rearranged_perm {perm positions order : List ℕ} (hnodup : positions.Nodup)
    (hlt : ∀ p ∈ positions, p < perm.length) (horder : order.Perm (List.range positions.length)) :
    (rearranged perm positions order).Perm perm := by
  have hlength : positions.length = order.length := by rw [horder.length_eq, List.length_range]
  have hwrite := foldl_set_perm (fun k => perm.getD (positions.getD k 0) 0) positions order perm
    hlength hnodup hlt
  -- what is written is what was there
  have hgenes : (order.map fun k => perm.getD (positions.getD k 0) 0).Perm
      (positions.map (perm.getD · 0)) := by
    refine (horder.map _).trans (List.Perm.of_eq ?_)
    refine List.ext_getElem (by simp) ?_
    intro i hi hi'
    have hi : i < positions.length := by simpa using hi
    rw [List.getElem_map, List.getElem_range, List.getElem_map, List.getD_eq_getElem _ _ hi]
  exact (List.perm_append_left_iff _).mp (hwrite.trans (hgenes.append_right perm))

/-- A placement with rearranged genes is a placement. -/
theorem always_mutateShuffle {perm : List ℕ} {n : ℕ} (h : IsPermutation perm n) (k : ℕ) :
    Draw.Always (IsPermutation · n) (mutateShuffle perm k) := by
  refine (Draw.always_sample (Nat.min_le_right k perm.length)).bind fun positions hpositions => ?_
  refine (Draw.always_shuffle _).bind fun order horder => Draw.always_pure ?_
  rw [← hpositions.length_eq] at horder
  exact h.of_perm (rearranged_perm hpositions.nodup hpositions.lt horder)

end Rearranging

/-- A placement with two genes exchanged is a placement. -/
theorem always_mutateSwap {perm : List ℕ} {n : ℕ} (h : IsPermutation perm n) :
    Draw.Always (IsPermutation · n) (mutateSwap perm) := by
  unfold mutateSwap
  split
  · exact Draw.always_pure h
  · exact Draw.always_bind fun _ => Draw.always_pure (h.of_perm (swapAt_perm _ _ _))

end Placement

end CnotSynthesis
