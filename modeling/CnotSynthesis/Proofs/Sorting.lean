import CnotSynthesis.Sorting
import Mathlib

/-! # Ascending lists are ascending

* **`orders_lt`**, **`orders_lex`**, **`orders_listBefore`** — the tests in use order;
  **`listBefore_iff`** — lists are in dictionary order.
* **`Orders.eq_of_mem_iff`** — an ascending list is known by its elements.
* **`perm_sortNumbers`**, **`pairwise_sortNumbers`** — sorting numbers rearranges them in ascending
  order; **`isSome_binarySearch_iff`** — in such a list a search by halves finds what is there.
* **`leastBy_le`** — the least element has the least key, if the test goes by a key first. -/

namespace CnotSynthesis

variable {α β : Type}

/-! ## Orders -/

/-- An order of the images of different elements. -/
theorem Orders.comap {before : α → α → Bool} (h : Orders before) {f : β → α}
    (hf : Function.Injective f) : Orders fun a b => before (f a) (f b) where
  irrefl := fun a => h.irrefl (f a)
  trans := h.trans
  total := fun hab => h.total (hf.ne hab)

/-- A test for being less. -/
theorem Orders.of_lt [LinearOrder α] {before : α → α → Bool}
    (h : ∀ {a b}, before a b = true ↔ a < b) : Orders before where
  irrefl := fun a => Bool.eq_false_iff.mpr fun haa => lt_irrefl a (h.mp haa)
  trans := fun hab hbc => h.mpr ((h.mp hab).trans (h.mp hbc))
  total := fun hab => (lt_or_gt_of_ne hab).imp h.mpr h.mpr

/-- Numbers are ordered. -/
theorem orders_lt : Orders fun a b : ℕ => decide (a < b) := .of_lt decide_eq_true_iff

/-- Dictionary order on pairs. -/
theorem orders_lex [DecidableEq α] {before : α → α → Bool} {before' : β → β → Bool}
    (h : Orders before) (h' : Orders before') :
    Orders fun a b : α × β => before a.1 b.1 || (a.1 == b.1 && before' a.2 b.2) where
  irrefl := by
    intro a
    simp [h.irrefl, h'.irrefl]
  trans := by
    intro a b c hab hbc
    simp only [Bool.or_eq_true, Bool.and_eq_true, beq_iff_eq] at hab hbc ⊢
    rcases hab with hab | ⟨hab, hab'⟩ <;> rcases hbc with hbc | ⟨hbc, hbc'⟩
    · exact .inl (h.trans hab hbc)
    · exact .inl (hbc ▸ hab)
    · exact .inl (hab ▸ hbc)
    · exact .inr ⟨hab.trans hbc, h'.trans hab' hbc'⟩
  total := by
    intro a b hab
    simp only [Bool.or_eq_true, Bool.and_eq_true, beq_iff_eq]
    by_cases hfirst : a.1 = b.1
    · have hsecond : a.2 ≠ b.2 := fun heq => hab (Prod.ext hfirst heq)
      rcases h'.total hsecond with hlt | hlt
      · exact .inl (.inr ⟨hfirst, hlt⟩)
      · exact .inr (.inr ⟨hfirst.symm, hlt⟩)
    · exact (h.total hfirst).imp .inl .inl

/-- Dictionary order on lists. -/
theorem listBefore_iff {a b : List ℕ} : listBefore a b = true ↔ a < b := by
  induction a generalizing b with
  | nil =>
    cases b with
    | nil => simp [listBefore]
    | cons y b => simp [listBefore]
  | cons x a ih =>
    cases b with
    | nil => simp [listBefore]
    | cons y b => simp [listBefore, List.cons_lt_cons_iff, ih]

/-- Lists of numbers are ordered as in a dictionary. -/
theorem orders_listBefore : Orders listBefore := .of_lt listBefore_iff

/-! ## Sorted lists -/

section Sorted

variable {before : α → α → Bool} (h : Orders before)

include h

/-- A strictly ascending list has no repetitions. -/
theorem Orders.nodup {l : List α} (hl : l.Pairwise (before · · = true)) : l.Nodup := by
  refine hl.imp ?_
  rintro a b hab rfl
  rw [h.irrefl] at hab
  cases hab

/-- **An ascending list is known by its elements.** -/
theorem Orders.eq_of_mem_iff {l l' : List α} (hl : l.Pairwise (before · · = true))
    (hl' : l'.Pairwise (before · · = true)) (hmem : ∀ a, a ∈ l ↔ a ∈ l') : l = l' := by
  have hperm : l.Perm l' := (List.perm_ext_iff_of_nodup (h.nodup hl) (h.nodup hl')).mpr hmem
  refine hperm.eq_of_pairwise ?_ hl hl'
  intro a b _ _ hab hba
  -- an element before itself is none
  have hself := h.trans hab hba
  rw [h.irrefl] at hself
  cases hself

/-- A sorted list has no repetitions. -/
theorem nodup_sortDistinct [DecidableEq α] (l : List α) : (sortDistinct before l).Nodup :=
  h.nodup (pairwise_sortDistinct h l)

end Sorted

/-! ## Numbers -/

/-- An inserted number joins the others. -/
theorem perm_insertNumber (a : ℕ) (l : List ℕ) : (insertNumber a l).Perm (a :: l) := by
  induction l with
  | nil => exact .refl _
  | cons b rest ih =>
    unfold insertNumber
    split
    · exact .refl _
    · exact (ih.cons b).trans (.swap a b rest)

/-- **Sorting rearranges.** -/
theorem perm_sortNumbers (l : List ℕ) : (sortNumbers l).Perm l := by
  induction l with
  | nil => exact .refl _
  | cons a rest ih => exact (perm_insertNumber a _).trans (ih.cons a)

/-- A number inserted into an ascending list stands in its place. -/
theorem pairwise_insertNumber (a : ℕ) {l : List ℕ} (hl : l.Pairwise (· ≤ ·)) :
    (insertNumber a l).Pairwise (· ≤ ·) := by
  induction l with
  | nil => exact List.pairwise_singleton _ _
  | cons b rest ih =>
    obtain ⟨hb, hrest⟩ := List.pairwise_cons.mp hl
    unfold insertNumber
    split
    · next hab =>
      refine List.pairwise_cons.mpr ⟨?_, hl⟩
      exact List.forall_mem_cons.mpr ⟨hab, fun x hx => hab.trans (hb x hx)⟩
    · next hab =>
      refine List.pairwise_cons.mpr ⟨?_, ih hrest⟩
      intro x hx
      rcases List.mem_cons.mp ((perm_insertNumber a rest).mem_iff.mp hx) with rfl | hx
      · omega
      · exact hb x hx

/-- **Sorted numbers ascend.** -/
theorem pairwise_sortNumbers (l : List ℕ) : (sortNumbers l).Pairwise (· ≤ ·) := by
  induction l with
  | nil => exact List.Pairwise.nil
  | cons a rest ih => exact pairwise_insertNumber a ih

/-- **Narrowing down ends at a place of the number**, if it has one among the places to begin
with. -/
theorem getElem?_bisect {l : List ℕ} (hl : l.Pairwise (· ≤ ·)) {a : ℕ} (fuel : ℕ) :
    ∀ {base size i : ℕ}, l[i]? = some a → base ≤ i → i < base + size → base + size ≤ l.length →
      size ≤ fuel + 1 → l[bisect l a fuel base size]? = some a := by
  induction fuel with
  | zero =>
    intro base size i hi hbase hlt _ hfuel
    obtain rfl : base = i := by omega
    exact hi
  | succ fuel ih =>
    intro base size i hi hbase hlt hsize hfuel
    unfold bisect
    split
    · obtain rfl : base = i := by omega
      exact hi
    · next hmore =>
      have hmid : base + size / 2 < l.length := by omega
      obtain ⟨hilt, rfl⟩ := List.getElem?_eq_some_iff.mp hi
      dsimp only
      rw [List.getD_eq_getElem _ _ hmid]
      split
      · next hless =>
        -- the number in the middle is greater, so the place is before it
        have hbefore : i < base + size / 2 := by
          by_contra hafter
          have hle := hl.rel_get_of_le (a := ⟨base + size / 2, hmid⟩) (b := ⟨i, hilt⟩)
            (not_lt.mp hafter)
          exact absurd hless (not_lt.mpr hle)
        exact ih hi hbase (by omega) (by omega) (by omega)
      · next hless =>
        by_cases hbefore : i < base + size / 2
        · -- the number in the middle is the same one
          have hle := hl.rel_get_of_le (a := ⟨i, hilt⟩) (b := ⟨base + size / 2, hmid⟩) hbefore.le
          have heq : l[base + size / 2] = l[i] := le_antisymm (not_lt.mp hless) hle
          exact ih (List.getElem?_eq_some_iff.mpr ⟨hmid, heq⟩) le_rfl (by omega) (by omega)
            (by omega)
        · exact ih hi (by omega) (by omega) (by omega) (by omega)

/-- What a search finds is there, in whatever order the list is. -/
theorem getElem?_of_binarySearch {l : List ℕ} {a i : ℕ} (h : binarySearch l a = some i) :
    l[i]? = some a := by
  unfold binarySearch at h
  dsimp only at h
  split at h
  · next hi => rwa [← Option.some.inj h]
  · cases h

/-- **In an ascending list a search by halves finds what is there.** -/
theorem isSome_binarySearch_iff {l : List ℕ} (hl : l.Pairwise (· ≤ ·)) {a : ℕ} :
    (binarySearch l a).isSome = true ↔ a ∈ l := by
  rw [Option.isSome_iff_exists]
  constructor
  · rintro ⟨i, hi⟩
    exact List.mem_of_getElem? (getElem?_of_binarySearch hi)
  · intro ha
    obtain ⟨i, hlt, rfl⟩ := List.getElem_of_mem ha
    have hfound : l[bisect l l[i] l.length 0 l.length]? = some l[i] :=
      getElem?_bisect hl l.length (List.getElem?_eq_getElem hlt) (Nat.zero_le i) (by omega)
        (by omega) (by omega)
    exact ⟨_, if_pos hfound⟩

/-! ## Least elements -/

/-- **The least element has the least key**, if the test compares keys before anything else. -/
theorem leastBy_le {before : α → α → Bool} {key : α → ℕ}
    (hle : ∀ a b, before a b = true → key a ≤ key b)
    (hge : ∀ a b, before a b = false → key b ≤ key a) {l : List α} {a : α}
    (h : leastBy before l = some a) : ∀ b ∈ l, key a ≤ key b := by
  induction l generalizing a with
  | nil => cases h
  | cons c rest ih =>
    unfold leastBy at h
    cases hrest : leastBy before rest with
    | none =>
      rw [hrest] at h
      cases h
      intro b hb
      rcases List.mem_cons.mp hb with rfl | hb
      · exact le_rfl
      · obtain ⟨d, hd⟩ := exists_leastBy before (List.ne_nil_of_mem hb)
        cases hrest.symm.trans hd
    | some d =>
      rw [hrest] at h
      dsimp only at h
      have hd := ih hrest
      split at h
      · next hdc =>
        rw [← Option.some.inj h]
        exact List.forall_mem_cons.mpr ⟨hle d c hdc, hd⟩
      · next hdc =>
        rw [← Option.some.inj h]
        refine List.forall_mem_cons.mpr ⟨le_rfl, fun b hb => ?_⟩
        exact (hge d c (Bool.eq_false_iff.mpr hdc)).trans (hd b hb)

end CnotSynthesis
