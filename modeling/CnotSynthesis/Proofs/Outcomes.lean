import Mathlib.Logic.Basic

/-! # Computations that may be refused

How a computation with checks in it comes to succeed.

* **`check_bind_eq_ok_iff`**, **`check_pure_eq_ok_iff`** — what follows a check.
* **`mapError_eq_ok_iff`** — errors in other words.
* **`eq_ok_of_toOption`** — a result that is known.
* **`foldlM_eq_ok`** — steps in a row that keep what makes them go through. -/

namespace CnotSynthesis

variable {ε ε' α β : Type}

/-- A computation behind a check. -/
theorem check_bind_eq_ok_iff {check : Except ε Unit} {rest : Except ε α} {a : α} :
    (check >>= fun _ => rest) = .ok a ↔ check = .ok () ∧ rest = .ok a := by
  cases check with
  | error e => exact ⟨nofun, fun h => nomatch h.1⟩
  | ok u => exact ⟨fun h => ⟨rfl, h⟩, fun h => h.2⟩

/-- A value behind a check. -/
theorem check_pure_eq_ok_iff {check : Except ε Unit} {a b : α} :
    (check >>= fun _ => pure a) = .ok b ↔ check = .ok () ∧ b = a :=
  check_bind_eq_ok_iff.trans (and_congr_right' ((Except.ok.injEq a b).to_iff.trans eq_comm))

/-- An error in other words is an error still. -/
theorem mapError_eq_ok_iff {f : ε → ε'} {x : Except ε α} {a : α} :
    x.mapError f = .ok a ↔ x = .ok a := by
  cases x with
  | error e => exact ⟨nofun, nofun⟩
  | ok b => exact (Except.ok.injEq b a).to_iff.trans (Except.ok.injEq b a).to_iff.symm

/-- A result that is known, where errors cannot be compared. -/
theorem eq_ok_of_toOption {x : Except ε α} {a : α} (h : x.toOption = some a) : x = .ok a := by
  cases x with
  | error e => cases h
  | ok b => rw [← Option.some.inj h]

/-- **Steps in a row**: steps that go through as long as an invariant holds, which they keep. -/
theorem foldlM_eq_ok {f : α → β → Except ε α} {g : α → β → α} (I : α → Prop)
    {bs : List β} (hstep : ∀ a, I a → ∀ b ∈ bs, f a b = .ok (g a b) ∧ I (g a b)) {a : α}
    (ha : I a) : bs.foldlM f a = .ok (bs.foldl g a) := by
  induction bs generalizing a with
  | nil => rfl
  | cons b bs ih =>
    obtain ⟨hfirst, hkept⟩ := hstep a ha b List.mem_cons_self
    rw [List.foldlM_cons, hfirst]
    exact ih (fun a ha b hb => hstep a ha b (List.mem_cons_of_mem _ hb)) hkept

end CnotSynthesis
