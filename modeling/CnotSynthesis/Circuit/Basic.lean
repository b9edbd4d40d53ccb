import CnotSynthesis.Matrix.Contract

/-! # CNOT circuits

A circuit is a list of gates on numbered wires. A gate adds the value of its control wire into its
target wire, so a circuit carries out a linear map modulo 2.

* **`Circuit.apply c M`** — the gates as row additions on `M`, first gate first;
  `Circuit.parity c` is the result on the identity, the matrix of the map.
* **`recordRow`** puts a row addition in front of the gates, **`recordCol`** a column addition
  behind them. An elimination recorded either way leaves a circuit for the matrix it started from.
* **`Layout`** — the relabelling of rows and columns made before the circuit was found.
* **`Circuit.WellFormed`** — every gate has two different wires of the circuit, and a layout
  consists of two permutations of the wires. -/

namespace CnotSynthesis

/-- A controlled-not gate. -/
structure Gate where
  control : Nat
  target : Nat
deriving DecidableEq, Repr

namespace Gate

/-- Whether the gate acts on the wire. -/
def touches (g : Gate) (qubit : Nat) : Bool := g.control == qubit || g.target == qubit

/-- Control and target exchanged. -/
def flipped (g : Gate) : Gate := ⟨g.target, g.control⟩

/-- The gate as a line of text. -/
def display (g : Gate) : String := s!"cx q[{g.control}], q[{g.target}];"

end Gate

/-- A relabelling of rows (output wires) and columns (input wires). -/
structure Layout where
  rowPerm : List Nat
  colPerm : List Nat
deriving DecidableEq, Repr

namespace Layout

/-- Every wire keeps its number. -/
def identity (n : Nat) : Layout := ⟨List.range n, List.range n⟩

/-- Rows and columns exchanged. -/
def flipped (l : Layout) : Layout := ⟨l.colPerm, l.rowPerm⟩

end Layout

/-- Gates on `qubits` wires, in the order in which they act. -/
structure Circuit where
  qubits : Nat
  gates : List Gate
  layout : Option Layout
deriving DecidableEq, Repr

namespace Circuit

/-- No gates on `n` wires. -/
def empty (n : Nat) : Circuit := ⟨n, [], none⟩

/-- Number of gates. -/
def count (c : Circuit) : Nat := c.gates.length

/-! ## Gates added at either end -/

/-- Check the wires of a gate: control, target, then that they differ. -/
def checkGate (c : Circuit) (g : Gate) : Except AlgebraError Unit :=
  if c.qubits ≤ g.control then .error (.qubitOutOfRange g.control c.qubits)
  else if c.qubits ≤ g.target then .error (.qubitOutOfRange g.target c.qubits)
  else if g.control = g.target then .error (.selfLoop g.control)
  else .ok ()

/-- A gate behind the others. -/
def push (c : Circuit) (g : Gate) : Except AlgebraError Circuit := do
  c.checkGate g
  return { c with gates := c.gates ++ [g] }

/-- A gate in front of the others. -/
def pushFront (c : Circuit) (g : Gate) : Except AlgebraError Circuit := do
  c.checkGate g
  return { c with gates := g :: c.gates }

/-- Record that row `source` was added into row `target` of the matrix being reduced. -/
def recordRow (c : Circuit) (target source : Nat) : Except AlgebraError Circuit :=
  c.pushFront ⟨source, target⟩

/-- Record that column `source` was added into column `target` of the matrix being reduced. -/
def recordCol (c : Circuit) (target source : Nat) : Except AlgebraError Circuit :=
  c.push ⟨target, source⟩

/-- A circuit from gates in order; the first bad gate is refused. -/
def ofGates (qubits : Nat) (gates : List Gate) : Except AlgebraError Circuit :=
  gates.foldlM push (empty qubits)

/-- The gates of `d` behind those of `c`. -/
def append (c d : Circuit) : Except AlgebraError Circuit :=
  if d.qubits = c.qubits then .ok { c with gates := c.gates ++ d.gates }
  else .error (.wireMismatch c.qubits d.qubits)

/-! ## Whole circuits -/

/-- The gates in reverse order: the inverse circuit, since a gate undoes itself. -/
def inverse (c : Circuit) : Circuit := ⟨c.qubits, c.gates.reverse, none⟩

/-- The circuit of the transposed map: gates reversed and flipped, the layout flipped. -/
def transpose (c : Circuit) : Circuit :=
  ⟨c.qubits, c.gates.reverse.map Gate.flipped, c.layout.map Layout.flipped⟩

/-- Attach a layout of two permutations of the wires. -/
def setLayout (c : Circuit) (l : Layout) : Except AlgebraError Circuit := do
  Permutation.check l.rowPerm c.qubits
  Permutation.check l.colPerm c.qubits
  return { c with layout := some l }

/-- Attach the layout that keeps the numbers of `n` wires. -/
def setIdentityLayout (c : Circuit) (n : Nat) : Except (Fault AlgebraError) Circuit := do
  (requireRoom n).mapError .broken
  if n = c.qubits then return { c with layout := some (Layout.identity n) }
  else throw (.refused (.wrongLength n c.qubits))

/-- Two different wires of the circuit. -/
def IsGate (n : Nat) (g : Gate) : Prop := g.control < n ∧ g.target < n ∧ g.control ≠ g.target

/-- Every gate joins two different wires, and a layout permutes the wires. -/
structure WellFormed (c : Circuit) : Prop where
  gates : ∀ g ∈ c.gates, IsGate c.qubits g
  layout : ∀ l ∈ c.layout, IsPermutation l.rowPerm c.qubits ∧ IsPermutation l.colPerm c.qubits

/-! ## The map of a circuit -/

/-- The gates as row additions on `M`. -/
def apply (c : Circuit) (M : ParityMatrix) : ParityMatrix :=
  c.gates.foldl (fun M g => M.addRow g.target g.control) M

/-- The matrix of the map that the circuit carries out. -/
def parity (c : Circuit) : ParityMatrix := c.apply (ParityMatrix.identity c.qubits)

/-- The gates as checked row additions: the matrix as left, and the breach that stopped them. -/
def applyGates : List Gate → ParityMatrix → ParityMatrix × Option Breach
  | [], M => (M, none)
  | g :: gs, M =>
    match M.addRow? g.target g.control with
    | .ok N => applyGates gs N
    | .error breach => (M, some breach)

/-- The gates carried out on `M` until one breaks the contract of a row addition. -/
def applyTo (c : Circuit) (M : ParityMatrix) : ParityMatrix × Option Breach :=
  applyGates c.gates M

/-- The matrix of the map, for a circuit whose gates are checked before they act. -/
def parityMap (c : Circuit) : Except Breach ParityMatrix := do
  ParityMatrix.requireShape c.qubits c.qubits
  match c.gates.findSome? fun g => ParityMatrix.rowBreach? c.qubits g.target g.control with
  | some breach => throw breach
  | none => return c.parity

/-! ## Depth -/

/-- Pack gates into layers of disjoint gates, in order: the number of layers begun, given the wires
in use by the current one. -/
def layersFrom : List Nat → List Gate → Nat
  | _, [] => 0
  | busy, g :: gs =>
    if busy.any g.touches then 1 + layersFrom [g.control, g.target] gs
    else layersFrom (g.control :: g.target :: busy) gs

/-- Number of layers when every gate joins the current layer if its wires are free there. -/
def depth (c : Circuit) : Nat := if c.gates.isEmpty then 0 else 1 + layersFrom [] c.gates

/-- The depth of a circuit all of whose gates act on its wires. A list of the wires is kept as soon
as there are gates. -/
def checkedDepth (c : Circuit) : Except Breach Nat := do
  if c.gates.isEmpty then return 0
  else
    requireRoom c.qubits
    if c.gates.all fun g => g.control < c.qubits && g.target < c.qubits then return c.depth
    else throw .position

/-- The circuit as lines of text. -/
def display (c : Circuit) : String :=
  s!"qreg q[{c.qubits}];\n" ++ String.join (c.gates.map fun g => g.display ++ "\n")

end Circuit

end CnotSynthesis
