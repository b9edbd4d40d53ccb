/-! # Ascending lists

An order is given by a test `before`: strict, and of two different elements one is before the other.

* **`insertDistinct before a l`** — `a` in its place in an ascending list without repetitions
  (`mem_insertDistinct`).
* **`sortDistinct before l`** — the elements of `l`, ascending, each once (`mem_sortDistinct`,
  `pairwise_sortDistinct`).
* **`sortNumbers l`** — the numbers of `l`, ascending, as often as `l` has them.
* **`binarySearch l a`** — where `a` stands in an ascending list of numbers, if it is there.
* **`leastBy before l`** — the first of the least elements (`leastBy_mem`, `exists_leastBy`). -/

namespace CnotSynthesis

variable {α : Type}

/-- Insert into an ascending list, unless it is there already. -/
def insertDistinct [DecidableEq α] (before : α → α → Bool) (a : α) : List α → List α
  | [] => [a]
  | b :: rest =>
    if before a b then a :: b :: rest
    else if a = b then b :: rest
    else b :: insertDistinct before a rest

/-- What is inserted is there, and the rest stays. -/
theorem mem_insertDistinct [DecidableEq α] {before : α → α → Bool} {a x : α} {l : List α} :
    x ∈ insertDistinct before a l ↔ x = a ∨ x ∈ l := by
  induction l with
  | nil => simp [insertDistinct]
  | cons b rest ih =>
    unfold insertDistinct
    by_cases hb : before a b
    · rw [if_pos hb, List.mem_cons]
    · rw [if_neg hb]
      by_cases he : a = b
      · rw [if_pos he, he]
        simp
      · rw [if_neg he, List.mem_cons, ih, List.mem_cons]
        exact or_left_comm

/-- The elements in ascending order, each once. -/
def sortDistinct [DecidableEq α] (before : α → α → Bool) (l : List α) : List α :=
  l.foldr (insertDistinct before) []

/-- Sorting keeps the elements. -/
theorem mem_sortDistinct [DecidableEq α] {before : α → α → Bool} {x : α} {l : List α} :
    x ∈ sortDistinct before l ↔ x ∈ l := by
  induction l with
  | nil => exact Iff.rfl
  | cons a rest ih =>
    have hstep : sortDistinct before (a :: rest) =
        insertDistinct before a (sortDistinct before rest) :=
      rfl
    rw [hstep, mem_insertDistinct, ih, List.mem_cons]

/-! ## Orders -/

/-- **A test that orders**: strict, and of two different elements one is before the other. -/
structure Orders (before : α → α → Bool) : Prop where
  irrefl : ∀ a, before a a = false
  trans : ∀ {a b c}, before a b = true → before b c = true → before a c = true
  total : ∀ {a b}, a ≠ b → before a b = true ∨ before b a = true

/-- **An element inserted** into an ascending list stands in its place. -/
theorem pairwise_insertDistinct [DecidableEq α] {before : α → α → Bool} (h : Orders before)
    {l : List α} (hl : l.Pairwise (before · · = true)) (a : α) :
    (insertDistinct before a l).Pairwise (before · · = true) := by
  induction l with
  | nil => exact List.pairwise_singleton _ _
  | cons b rest ih =>
    obtain ⟨hb, hrest⟩ := List.pairwise_cons.mp hl
    unfold insertDistinct
    split
    · next hab =>
      refine List.pairwise_cons.mpr ⟨?_, hl⟩
      intro x hx
      rcases List.mem_cons.mp hx with rfl | hx
      · exact hab
      · exact h.trans hab (hb x hx)
    · next hab =>
      split
      · exact hl
      · next hne =>
        refine List.pairwise_cons.mpr ⟨?_, ih hrest⟩
        intro x hx
        rcases mem_insertDistinct.mp hx with rfl | hx
        · exact (h.total hne).resolve_left hab
        · exact hb x hx

/-- **A sorted list ascends.** -/
theorem pairwise_sortDistinct [DecidableEq α] {before : α → α → Bool} (h : Orders before)
    (l : List α) : (sortDistinct before l).Pairwise (before · · = true) := by
  induction l with
  | nil => exact List.Pairwise.nil
  | cons a rest ih => exact pairwise_insertDistinct h ih a

/-- Pairs of numbers in dictionary order. -/
def pairBefore (a b : Nat × Nat) : Bool := a.1 < b.1 || (a.1 == b.1 && a.2 < b.2)

/-- The dictionary order is one. -/
theorem orders_pairBefore : Orders pairBefore where
  irrefl := by simp [pairBefore]
  trans := by
    intro a b c hab hbc
    simp only [pairBefore, Bool.or_eq_true, Bool.and_eq_true, decide_eq_true_eq, beq_iff_eq] at *
    omega
  total := by
    rintro ⟨a, a'⟩ ⟨b, b'⟩ hab
    simp only [ne_eq, Prod.mk.injEq] at hab
    simp only [pairBefore, Bool.or_eq_true, Bool.and_eq_true, decide_eq_true_eq, beq_iff_eq]
    omega

/-! ## Numbers -/

/-- Insert into an ascending list of numbers, before the first one that is not less. -/
def insertNumber (a : Nat) : List Nat → List Nat
  | [] => [a]
  | b :: rest => if a ≤ b then a :: b :: rest else b :: insertNumber a rest

/-- The numbers in ascending order. -/
def sortNumbers (l : List Nat) : List Nat := l.foldr insertNumber []

/-- Narrow the `size` places from `base` on down to one, which is the place of `a` if `a` has one in
the ascending list. Every step leaves at most half of the places, rounded up, so the length of the
list is enough `fuel`. -/
def bisect (l : List Nat) (a : Nat) : (fuel base size : Nat) → Nat
  | 0, base, _ => base
  | fuel + 1, base, size =>
    if size ≤ 1 then base
    else
      let half := size / 2
      let base := if a < l.getD (base + half) 0 then base else base + half
      bisect l a fuel base (size - half)

/-- The place of `a` in an ascending list. -/
def binarySearch (l : List Nat) (a : Nat) : Option Nat :=
  let i := bisect l a l.length 0 l.length
  if l[i]? = some a then some i else none

/-! ## Least elements -/

/-- The first of the least elements. -/
def leastBy (before : α → α → Bool) : List α → Option α
  | [] => none
  | a :: rest =>
    match leastBy before rest with
    | none => some a
    | some b => if before b a then some b else some a

/-- The least element is one of the list. -/
theorem leastBy_mem {before : α → α → Bool} {l : List α} {a : α} (h : leastBy before l = some a) :
    a ∈ l := by
  induction l generalizing a with
  | nil => cases h
  | cons b rest ih =>
    unfold leastBy at h
    cases hr : leastBy before rest with
    | none =>
      rw [hr] at h
      rw [← Option.some.inj h]
      exact List.mem_cons_self
    | some c =>
      rw [hr] at h
      change (if before c b then some c else some b) = some a at h
      by_cases hc : before c b
      · rw [if_pos hc] at h
        rw [← Option.some.inj h]
        exact List.mem_cons_of_mem _ (ih hr)
      · rw [if_neg hc] at h
        rw [← Option.some.inj h]
        exact List.mem_cons_self

/-- A list that is not empty has a least element. -/
theorem exists_leastBy (before : α → α → Bool) {l : List α} (h : l ≠ []) :
    ∃ a, leastBy before l = some a := by
  cases l with
  | nil => exact absurd rfl h
  | cons a rest =>
    unfold leastBy
    cases leastBy before rest with
    | none => exact ⟨a, rfl⟩
    | some b => by_cases hb : before b a = true <;> simp [hb]

/-- Lists of numbers in dictionary order. -/
def listBefore : List Nat → List Nat → Bool
  | [], [] => false
  | [], _ :: _ => true
  | _ :: _, [] => false
  | a :: as, b :: bs => a < b || (a == b && listBefore as bs)

end CnotSynthesis
