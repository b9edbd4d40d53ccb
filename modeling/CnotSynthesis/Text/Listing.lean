/-! # Numbers and lists of numbers as text

* **`listing ns`** — `[1, 2, 3]`, the form in which messages quote rows, qubits and permutations. -/

namespace CnotSynthesis

/-- A list of numbers between brackets, separated by a comma and a blank. -/
def listing (ns : List Nat) : String :=
  "[" ++ ", ".intercalate (ns.map Nat.repr) ++ "]"

end CnotSynthesis
