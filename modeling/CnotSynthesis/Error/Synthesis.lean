import CnotSynthesis.Config.Mode
import CnotSynthesis.Decimal.Format
import CnotSynthesis.Error.Algebra

/-! # Why a synthesis fails

* **`StructuralCause`** — an elimination step that the coupling graph or the matrix does not allow.
* **`ConfigCause`** — a setting or a coupling list out of range.
* **`SynthesisError`** — one of these, or a mismatch of sizes, or an error of the algebra below.

Each has its wording in one function `message`. -/

namespace CnotSynthesis

/-- An elimination step that cannot be carried out. -/
inductive StructuralCause where
  | qubitOutOfRange (qubit : Nat) (graph : String)
  | rootOutside (root : Nat)
  | terminalOutside (terminal : Nat)
  | unreachable (terminals : List Nat) (root : Nat)
  | rootClearAfterLower (root column : Nat)
  | rowSetAfterLower (row column : Nat)
  | rootClearBeforeUpper (root column : Nat)
  | upperDiverges (column : Nat)
  | noDetour (terminal root : Nat)
  | noPivot (column : Nat) (rows : List Nat)
  | noVertex (rows : List Nat)
  | strayOne (row column : Nat)
  | zeroColumn (column : Nat)
  | singularBlock (row : Nat)
  | leftoverOne (row column : Nat)
  | lastEntryClear (row column : Nat)
  | outOfStates
deriving DecidableEq, Repr

/-- The wording of a structural cause. -/
def StructuralCause.message : StructuralCause → String
  | .qubitOutOfRange qubit graph => s!"qubit {qubit} out of range for architecture '{graph}'"
  | .rootOutside root => s!"Steiner root {root} is outside the usable qubits"
  | .terminalOutside terminal => s!"Steiner terminal {terminal} is outside the usable qubits"
  | .unreachable terminals root =>
    s!"Steiner terminals {listing terminals} unreachable from root {root}"
  | .rootClearAfterLower root column =>
    s!"root {root} holds 0 in column {column} after lower elimination"
  | .rowSetAfterLower row column =>
    s!"row {row} still holds a 1 in column {column} after lower elimination"
  | .rootClearBeforeUpper root column =>
    s!"root {root} holds 0 in column {column} before upper elimination"
  | .upperDiverges column => s!"upper elimination of column {column} did not converge"
  | .noDetour terminal root => s!"qubit {terminal} unreachable from {root}"
  | .noPivot column rows => s!"no pivot for column {column} among rows {listing rows}"
  | .noVertex rows => s!"no eliminable vertex among rows {listing rows}"
  | .strayOne row column =>
    s!"row {row} outside the remaining set holds a 1 in column {column}"
  | .zeroColumn column => s!"column {column} is zero"
  | .singularBlock row => s!"block left after removing row {row} is singular"
  | .leftoverOne row column =>
    s!"row {row} still holds a 1 in column {column} after row elimination"
  | .lastEntryClear row column => s!"last entry ({row}, {column}) is 0"
  | .outOfStates => "best-first search ran out of states"

/-- A setting or a coupling list out of range. -/
inductive ConfigCause where
  | edgeOutOfRange (a b qubits : Nat)
  | selfCoupling (vertex : Nat)
  | populationTooSmall (size : Nat)
  | notProbability (name : String) (value : Float)
  | emptySwarm
  | noThreads
  | noBranches
  | needsFullReduce (mode : Mode)
  | unknownMode (text : String)
  | notChainable

/-- The wording of a configuration cause. -/
def ConfigCause.message : ConfigCause → String
  | .edgeOutOfRange a b qubits => s!"edge ({a}, {b}) out of range for {qubits} qubits"
  | .selfCoupling vertex => s!"self-loop on vertex {vertex}"
  | .populationTooSmall size => s!"population_size must be at least 2, got {size}"
  | .notProbability name value =>
    s!"{name} must lie in [0, 1], got {Decimal.Format.message.render value}"
  | .emptySwarm => "swarm_size must be positive"
  | .noThreads => "threads must be positive"
  | .noBranches => "best_first.branch_width must be positive"
  | .needsFullReduce mode => s!"mode {mode.name} requires full_reduce"
  | .unknownMode text => s!"unknown elimination mode '{text}'"
  | .notChainable => "perm_row_col relabels circuit inputs and cannot be chained"

/-- Why a synthesis fails. -/
inductive SynthesisError where
  /-- An error of the matrices and circuits underneath. -/
  | algebra (cause : AlgebraError)
  /-- A step that cannot be carried out. -/
  | structural (cause : StructuralCause)
  /-- A singular matrix where an invertible one is needed. -/
  | notFullRank (rank size : Nat)
  /-- A matrix and a coupling graph of different sizes. -/
  | sizeMismatch (matrix graph : Nat)
  /-- A coupling graph in several pieces. -/
  | disconnected (graph : String)
  /-- A setting out of range. -/
  | invalidConfiguration (cause : ConfigCause)
  /-- A document that cannot be read. -/
  | unreadable

/-- The wording of a synthesis error; a document that cannot be read has none. -/
def SynthesisError.message? : SynthesisError → Option String
  | .algebra cause => some s!"IR error: {cause.message}"
  | .structural cause => some s!"Structural error: {cause.message}"
  | .notFullRank rank size =>
    some s!"Matrix of size {size} has rank {rank}; a full-rank matrix is required"
  | .sizeMismatch matrix graph =>
    some s!"Matrix has {matrix} rows but the architecture has {graph} qubits"
  | .disconnected graph => some s!"Architecture '{graph}' is not connected"
  | .invalidConfiguration cause => some s!"Invalid configuration: {cause.message}"
  | .unreadable => none

end CnotSynthesis
