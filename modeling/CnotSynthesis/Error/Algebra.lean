import CnotSynthesis.Text.Listing

/-! # Refused and broken calls on matrices, circuits and permutations

Two kinds of failure are kept apart.

* **`AlgebraError`** — the operands do not fit: a cause with its numbers, worded by
  `AlgebraError.message`. The operands are left as they were.
* **`Breach`** — the caller broke the contract of an operation that has no error to return, such as
  reading an entry outside the matrix. `Breach.message?` is the wording, for those that have one.
* **`requireRoom n`** — the check that breaks with `Breach.capacity`, where room for `n` elements is
  asked for at once; **`addressLimit`** is its bound.
* **`Fault ε`** — either of the two, for operations that can fail both ways. -/

namespace CnotSynthesis

/-- Why an operation on matrices, circuits or permutations is refused. -/
inductive AlgebraError where
  /-- Row `row` has `found` entries where the first row has `width`. -/
  | raggedRow (width found row : Nat)
  /-- An entry that is neither 0 nor 1. -/
  | invalidEntry (row col value : Nat)
  /-- A row addition asked of a matrix with only `rows` rows. -/
  | rowsBeyond (rows target source : Nat)
  /-- A product whose inner sizes differ. -/
  | productMismatch (cols rows : Nat)
  /-- Two circuits on different numbers of wires. -/
  | wireMismatch (qubits found : Nat)
  /-- A matrix that must be square. -/
  | notSquare (rows cols : Nat)
  /-- A matrix that must be `size x size`. -/
  | notOfSize (size rows cols : Nat)
  /-- A relabelling of `found` elements where `size` are to be relabelled. -/
  | wrongLength (found size : Nat)
  /-- A list that is not a rearrangement of `0..size`. -/
  | notPermutation (perm : List Nat) (size : Nat)
  /-- A wire outside the circuit. -/
  | qubitOutOfRange (qubit qubits : Nat)
  /-- A gate whose two ends are the same wire. -/
  | selfLoop (qubit : Nat)
deriving DecidableEq, Repr

/-- What was expected and what was found, for the causes that compare two sizes. -/
def AlgebraError.sizes? : AlgebraError → Option (String × String)
  | .raggedRow width found row => some (s!"{width} columns", s!"{found} columns in row {row}")
  | .rowsBeyond rows target source =>
    some (s!"row indices below {rows}", s!"row_add({target}, {source})")
  | .productMismatch cols rows => some (s!"{cols} rows", s!"{rows} rows")
  | .wireMismatch qubits found => some (s!"{qubits} qubits", s!"{found} qubits")
  | .notSquare rows cols => some ("square matrix", s!"{rows}x{cols}")
  | .notOfSize size rows cols => some (s!"{size}x{size}", s!"{rows}x{cols}")
  | _ => none

/-- The wording of a refusal. -/
def AlgebraError.message : AlgebraError → String
  | .invalidEntry row col value =>
    s!"Invalid matrix entry {value} at ({row}, {col}); expected 0 or 1"
  | .wrongLength found size => s!"Invalid permutation: length {found} does not match {size}"
  | .notPermutation perm size =>
    s!"Invalid permutation: {listing perm} is not a permutation of 0..{size}"
  | .qubitOutOfRange qubit qubits =>
    s!"Qubit {qubit} out of range for a circuit on {qubits} qubits"
  | .selfLoop qubit => s!"CNOT control and target must differ (both are {qubit})"
  | e =>
    match e.sizes? with
    | some (expected, found) => s!"Dimension mismatch: expected {expected}, found {found}"
    | none => ""

/-- How a caller broke the contract of an operation. -/
inductive Breach where
  /-- An entry outside the matrix. -/
  | entry (row col rows cols : Nat)
  /-- A row addition outside the matrix. -/
  | rowAddition (target source rows : Nat)
  /-- A column addition outside the matrix. -/
  | columnAddition (target source cols : Nat)
  /-- A row or column added to itself. -/
  | selfAddition
  /-- A position outside a list. -/
  | position
  /-- More elements than can be addressed. -/
  | capacity
deriving DecidableEq, Repr

/-- Numbers of elements from here on cannot be held: addresses have 48 bits, and an element takes a
byte or more, of whatever kind it is. Fewer elements are taken to be held. How many of them really
are depends on their size and on the machine, and is left open. -/
def addressLimit : Nat := 0x1000000000000

/-- Check that `n` elements can be held. The check stands wherever room for all elements is asked
for at once: the words of a matrix, the qubits of a placement, the particles of a swarm. What grows
by one element at a time, such as a population or a list of gates, asks for no room beforehand; it
is a loop, and loops of every length are taken to come to their end. -/
def requireRoom (n : Nat) : Except Breach Unit :=
  if n < addressLimit then .ok () else .error .capacity

/-- There is room below the limit. -/
theorem requireRoom_eq_ok {n : Nat} (h : n < addressLimit) : requireRoom n = .ok () := if_pos h

/-- The wording of a breach; positions, self-additions and capacities have none. -/
def Breach.message? : Breach → Option String
  | .entry row col rows cols => some s!"index ({row}, {col}) out of range for {rows}x{cols} matrix"
  | .rowAddition target source rows =>
    some s!"row_add({target}, {source}) out of range for {rows} rows"
  | .columnAddition target source cols =>
    some s!"col_add({target}, {source}) out of range for {cols} columns"
  | _ => none

/-- A failure of either kind. -/
inductive Fault (ε : Type) where
  /-- The call is refused with a reason. -/
  | refused (error : ε)
  /-- The call broke a contract. -/
  | broken (breach : Breach)

end CnotSynthesis
