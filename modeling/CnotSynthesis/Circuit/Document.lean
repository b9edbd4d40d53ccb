import CnotSynthesis.Circuit.Basic
import CnotSynthesis.Json.Value

/-! # Circuits as documents

* **`Circuit.toJson`** — the fields `qubits`, `gates` and `layout`.
* **`Circuit.ofJson?`** — a circuit as written: neither its gates nor its layout are checked. -/

namespace CnotSynthesis

/-- A gate as an object. -/
def Gate.toJson (g : Gate) : Json :=
  .object [("control", .ofNat g.control), ("target", .ofNat g.target)]

/-- A gate from a record of two wires. -/
def Gate.ofJson? (v : Json) : Option Gate := do
  let [some control, some target] ← v.record? ["control", "target"] | none
  return ⟨← control.nat?, ← target.nat?⟩

/-- A layout as an object. -/
def Layout.toJson (l : Layout) : Json :=
  .object [("row_perm", .ofNats l.rowPerm), ("col_perm", .ofNats l.colPerm)]

/-- A layout from a record of two lists. -/
def Layout.ofJson? (v : Json) : Option Layout := do
  let [some rowPerm, some colPerm] ← v.record? ["row_perm", "col_perm"] | none
  return ⟨← rowPerm.list? Json.nat?, ← colPerm.list? Json.nat?⟩

/-- A circuit as an object. -/
def Circuit.toJson (c : Circuit) : Json :=
  .object [("qubits", .ofNat c.qubits), ("gates", .array (c.gates.map Gate.toJson)),
    ("layout", .ofOption Layout.toJson c.layout)]

/-- A circuit from a record. An object may leave the layout out; an array has all three fields. -/
def Circuit.ofJson? (v : Json) : Option Circuit := do
  let [some qubits, some gates, layout] ← v.record? ["qubits", "gates", "layout"] | none
  let layout ←
    match v, layout with
    | .array _, none => none
    | _, none => some none
    | _, some l => l.option? Layout.ofJson?
  return ⟨← qubits.nat?, ← gates.list? Gate.ofJson?, layout⟩

end CnotSynthesis
