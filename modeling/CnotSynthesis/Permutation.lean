import CnotSynthesis.Error.Algebra

/-! # Permutations as lists

A relabelling of `0..n` is the list of images of `0, 1, …, n - 1`.

* **`IsPermutation perm n`** — `perm` has `n` distinct elements, all below `n`.
* **`Permutation.check perm n`** — the same as a check with a reason
  (`Permutation.check_eq_ok_iff`).
* **`Permutation.inverse perm`** — position `perm[i]` of the result holds `i`. -/

namespace CnotSynthesis

/-- The list `perm` rearranges `0..n`. -/
structure IsPermutation (perm : List Nat) (n : Nat) : Prop where
  length_eq : perm.length = n
  lt : ∀ p ∈ perm, p < n
  nodup : perm.Nodup

/-- Being a permutation as a conjunction, the form that is decided. -/
theorem isPermutation_iff {perm : List Nat} {n : Nat} :
    IsPermutation perm n ↔ perm.length = n ∧ (∀ p ∈ perm, p < n) ∧ perm.Nodup :=
  ⟨fun h => ⟨h.length_eq, h.lt, h.nodup⟩, fun h => ⟨h.1, h.2.1, h.2.2⟩⟩

/-- Whether a list is a permutation can be decided. -/
instance (perm : List Nat) (n : Nat) : Decidable (IsPermutation perm n) :=
  decidable_of_iff _ isPermutation_iff.symm

/-- The identity relabelling. -/
theorem isPermutation_range (n : Nat) : IsPermutation (List.range n) n :=
  ⟨List.length_range, fun _ h => List.mem_range.mp h, List.nodup_range⟩

/-- The number that stands for no position. -/
def unplaced : Nat := UInt64.size - 1

/-- Why `perm` does not rearrange `0..n`: a wrong length comes before a wrong element. -/
def Permutation.fault (perm : List Nat) (n : Nat) : AlgebraError :=
  if perm.length ≠ n then .wrongLength perm.length n else .notPermutation perm n

/-- Check that `perm` rearranges `0..n`. -/
def Permutation.check (perm : List Nat) (n : Nat) : Except AlgebraError Unit :=
  if IsPermutation perm n then .ok () else .error (Permutation.fault perm n)

/-- The check accepts permutations and nothing else. -/
theorem Permutation.check_eq_ok_iff {perm : List Nat} {n : Nat} :
    Permutation.check perm n = .ok () ↔ IsPermutation perm n := by
  unfold Permutation.check
  constructor
  · intro h
    by_cases hp : IsPermutation perm n
    · exact hp
    · rw [if_neg hp] at h
      cases h
  · intro h
    rw [if_pos h]

/-- Whether `perm` rearranges `0..perm.length`. -/
def Permutation.isValid (perm : List Nat) : Bool := decide (IsPermutation perm perm.length)

/-- Write `i` at position `perm[i]` of a list of zeros; a later element wins over an earlier one. -/
def Permutation.inverse (perm : List Nat) : List Nat :=
  perm.zipIdx.foldl (fun inv (p, i) => inv.set p i) (List.replicate perm.length 0)

/-- As `Permutation.inverse`, refusing elements that are no positions. -/
def Permutation.inverse? (perm : List Nat) : Except Breach (List Nat) :=
  if perm.all (· < perm.length) then .ok (Permutation.inverse perm) else .error .position

/-- The relabelling `inner` followed by `outer`: element `i` is `outer[inner[i]]`. -/
def Permutation.compose (outer inner : List Nat) : List Nat := inner.map fun i => outer.getD i 0

/-- As `Permutation.compose`, refusing elements of `inner` that are no positions of `outer`. -/
def Permutation.compose? (outer inner : List Nat) : Except Breach (List Nat) :=
  if inner.all (· < outer.length) then .ok (Permutation.compose outer inner) else .error .position

end CnotSynthesis
