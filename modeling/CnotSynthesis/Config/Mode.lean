import CnotSynthesis.Text.Blank

/-! # Elimination modes

* **`Mode`** — the eight ways to synthesise a circuit, each with its `name`.
* **`Mode.find?`** — the mode a text names: case, surrounding blanks, and the choice between `-`,
  blank and `_` do not matter. -/

namespace CnotSynthesis

/-- The ways to synthesise a circuit. -/
inductive Mode where
  /-- Gaussian elimination on any pair of qubits. -/
  | gauss
  /-- Gaussian elimination along Steiner trees of the coupling graph. -/
  | steiner
  /-- Vertex elimination, row and column tied. -/
  | rowCol
  /-- Vertex elimination, row and column chosen apart. -/
  | permRowCol
  /-- Genetic placement search around `steiner`. -/
  | geneticSteiner
  /-- Genetic placement search around `gauss`. -/
  | geneticGauss
  /-- Swarm placement search around `steiner`. -/
  | swarmSteiner
  /-- Swarm placement search around `gauss`. -/
  | swarmGauss
deriving DecidableEq, Repr

namespace Mode

/-- Every mode. -/
def all : List Mode :=
  [.gauss, .steiner, .rowCol, .permRowCol, .geneticSteiner, .geneticGauss, .swarmSteiner,
   .swarmGauss]

/-- The name of a mode in documents and messages. -/
def name : Mode → String
  | .gauss => "gauss"
  | .steiner => "steiner"
  | .rowCol => "row_col"
  | .permRowCol => "perm_row_col"
  | .geneticSteiner => "genetic_steiner"
  | .geneticGauss => "genetic_gauss"
  | .swarmSteiner => "pso_steiner"
  | .swarmGauss => "pso_gauss"

/-- The mode with exactly the given name. -/
def named? (text : String) : Option Mode := all.find? (·.name == text)

/-- Whether the gates are restricted to coupled pairs. -/
def respectsCoupling : Mode → Bool
  | .gauss | .geneticGauss | .swarmGauss => false
  | _ => true

/-- Whether the mode searches over placements. -/
def searchesPlacements : Mode → Bool
  | .geneticSteiner | .geneticGauss | .swarmSteiner | .swarmGauss => true
  | _ => false

/-- The spelling under which a text is looked up. -/
def lookupKey (text : String) : String :=
  String.ofList ((trimBlank text).toList.map fun c =>
    if c = '-' ∨ c = ' ' then '_' else c.toLower)

/-- The mode a text names. -/
def find? (text : String) : Option Mode := all.find? (·.name == lookupKey text)

end Mode

end CnotSynthesis
