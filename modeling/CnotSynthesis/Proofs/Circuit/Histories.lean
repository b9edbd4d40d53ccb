import CnotSynthesis.Random.Ensemble
import CnotSynthesis.Proofs.Circuit.Algebra
import CnotSynthesis.Proofs.Circuit.DepthBounds
import CnotSynthesis.Proofs.Circuit.Realisation
import CnotSynthesis.Proofs.Placement.Operators

/-! # Histories of a circuit

A circuit begins empty, with given gates or with random ones, and changes by one operation after the
other. Some operations check what they are given, others trust that the circuits they start from are
well formed.

* **`Circuit.Operation`** — the operations; `Operation.result` is the circuit that one makes, or its
  refusal, and `Operation.Fits` says on which circuits it is not refused.
* **`Circuit.Operation.perform`** — the same operation carried out in place, where a refusal halfway
  would leave a circuit half changed. **`Circuit.Operation.exec_perform`** — every check comes
  before the change, so none does.
* **`Circuit.Obtained`** — circuits with a history, refused operations included.
* **`Circuit.WellFormed.change`** — one operation keeps a circuit well formed;
  **`Circuit.Obtained.wellFormed`** — so does a history.
* **`Circuit.obtained_specification`** — no index out of range and no row added into itself, when
  the matrix or the depth of such a circuit is computed. -/

namespace CnotSynthesis.Circuit

open ParityMatrix

variable {c d : Circuit}

/-! ## Operations -/

/-- What can be done to a circuit. -/
inductive Operation where
  | push (g : Gate)
  | pushFront (g : Gate)
  | recordRow (target source : ℕ)
  | recordCol (target source : ℕ)
  | append (other : Circuit)
  | inverse
  | transpose
  | setLayout (l : Layout)

namespace Operation

/-- The circuit that the operation makes out of `c`. -/
def result (c : Circuit) : Operation → Except AlgebraError Circuit
  | push g => c.push g
  | pushFront g => c.pushFront g
  | recordRow t s => c.recordRow t s
  | recordCol t s => c.recordCol t s
  | append d => c.append d
  | inverse => .ok c.inverse
  | transpose => .ok c.transpose
  | setLayout l => c.setLayout l

/-- What the operation is given goes with the wires of `c`. -/
def Fits (c : Circuit) : Operation → Prop
  | push g | pushFront g => IsGate c.qubits g
  | recordRow t s => IsGate c.qubits ⟨s, t⟩
  | recordCol t s => IsGate c.qubits ⟨t, s⟩
  | append d => d.qubits = c.qubits
  | inverse | transpose => True
  | setLayout l => IsPermutation l.rowPerm c.qubits ∧ IsPermutation l.colPerm c.qubits

/-- The circuit after an operation that fits. -/
def change (c : Circuit) : Operation → Circuit
  | push g => { c with gates := c.gates ++ [g] }
  | pushFront g => { c with gates := g :: c.gates }
  | recordRow t s => { c with gates := ⟨s, t⟩ :: c.gates }
  | recordCol t s => { c with gates := c.gates ++ [⟨t, s⟩] }
  | append d => { c with gates := c.gates ++ d.gates }
  | inverse => c.inverse
  | transpose => c.transpose
  | setLayout l => { c with layout := some l }

/-- **An operation goes through exactly when it fits.** -/
theorem result_eq_ok_iff (op : Operation) : op.result c = .ok d ↔ op.Fits c ∧ d = op.change c := by
  cases op with
  | push g => exact push_eq_ok_iff
  | pushFront g => exact pushFront_eq_ok_iff
  | recordRow t s => exact pushFront_eq_ok_iff
  | recordCol t s => exact push_eq_ok_iff
  | append other =>
    by_cases hqubits : other.qubits = c.qubits
    · simp [result, Fits, change, Circuit.append, hqubits, eq_comm]
    · simp [result, Fits, change, Circuit.append, hqubits]
  | inverse | transpose => simp [result, Fits, change, eq_comm]
  | setLayout l => exact setLayout_eq_ok_iff

end Operation

/-! ## Operations in place -/

/-- Programs that change a circuit in place. What was changed before a refusal stays changed. -/
abbrev Editing := ExceptT AlgebraError (StateM Circuit)

namespace Editing

/-- The answer of a program, and the circuit that it leaves behind. -/
def exec (e : Editing Unit) (c : Circuit) : Except AlgebraError Unit × Circuit := e.run.run c

/-- Stop with an error unless the circuit passes a check. -/
def require (check : Circuit → Except AlgebraError Unit) : Editing Unit := do
  liftM (check (← get))

/-- Put a gate at its place among the others. -/
def addGate (g : Gate) (place : List Gate → List Gate) : Editing Unit := do
  require (·.checkGate g)
  modify fun c => { c with gates := place c.gates }

/-- What is seen of an operation on `c` that answers with a new circuit or an error: a new circuit
takes the place of `c`, an error leaves `c` as it is. -/
def seen (c : Circuit) : Except AlgebraError Circuit → Except AlgebraError Unit × Circuit
  | .ok d => (.ok (), d)
  | .error e => (.error e, c)

/-- A check that is passed goes unnoticed. -/
theorem exec_require_of_ok (check : Circuit → Except AlgebraError Unit) {rest : Editing Unit}
    (h : check c = .ok ()) : exec (do require check; rest) c = exec rest c := by
  change ExceptT.bindCont (m := StateM Circuit) (fun _ => rest) (check c) c = _
  rw [h]
  rfl

/-- A failed check leaves the circuit as it was. -/
theorem exec_require_of_error (check : Circuit → Except AlgebraError Unit) {rest : Editing Unit}
    {e : AlgebraError} (h : check c = .error e) :
    exec (do require check; rest) c = (.error e, c) := by
  change ExceptT.bindCont (m := StateM Circuit) (fun _ => rest) (check c) c = _
  rw [h]
  rfl

/-- A change behind one check. -/
theorem exec_require_modify (check : Circuit → Except AlgebraError Unit) (f : Circuit → Circuit)
    (c : Circuit) :
    exec (do require check; modify f) c = seen c (check c >>= fun _ => pure (f c)) := by
  cases hcheck : check c with
  | error e => exact exec_require_of_error check hcheck
  | ok _ => exact exec_require_of_ok check hcheck

end Editing

namespace Operation

open Editing

/-- The operation carried out in place. -/
def perform : Operation → Editing Unit
  | push g => addGate g (· ++ [g])
  | pushFront g => addGate g (g :: ·)
  | recordRow t s => addGate ⟨s, t⟩ (⟨s, t⟩ :: ·)
  | recordCol t s => addGate ⟨t, s⟩ (· ++ [⟨t, s⟩])
  | append d => do
    require fun c =>
      if d.qubits = c.qubits then .ok () else .error (.wireMismatch c.qubits d.qubits)
    modify fun c => { c with gates := c.gates ++ d.gates }
  | inverse => modify Circuit.inverse
  | transpose => modify Circuit.transpose
  | setLayout l => do
    require (Permutation.check l.rowPerm ·.qubits)
    require (Permutation.check l.colPerm ·.qubits)
    modify fun c => { c with layout := some l }

/-- **All checks come before the change**: in place, an operation puts its result in the place of
the circuit, and one that is refused leaves the circuit alone. -/
theorem exec_perform (op : Operation) (c : Circuit) : op.perform.exec c = seen c (op.result c) := by
  cases op with
  | push g | pushFront g => exact exec_require_modify (·.checkGate g) _ c
  | recordRow t s => exact exec_require_modify (·.checkGate ⟨s, t⟩) _ c
  | recordCol t s => exact exec_require_modify (·.checkGate ⟨t, s⟩) _ c
  | append other =>
    refine (exec_require_modify _ _ c).trans (congrArg (seen c) ?_)
    by_cases hqubits : other.qubits = c.qubits
    · simp only [result, Circuit.append, if_pos hqubits]
      rfl
    · simp only [result, Circuit.append, if_neg hqubits]
      rfl
  | inverse | transpose => rfl
  | setLayout l =>
    -- two checks, so that a refusal can come after one of them is passed
    change _ = seen c (Permutation.check l.rowPerm c.qubits >>= fun _ =>
      Permutation.check l.colPerm c.qubits >>= fun _ => pure { c with layout := some l })
    cases hrow : Permutation.check l.rowPerm c.qubits with
    | error e => exact exec_require_of_error (Permutation.check l.rowPerm ·.qubits) hrow
    | ok _ =>
      exact (exec_require_of_ok (Permutation.check l.rowPerm ·.qubits) hrow).trans
        (exec_require_modify (Permutation.check l.colPerm ·.qubits) _ c)

end Operation

/-! ## Circuits with a history -/

/-- Circuits that begin without gates, with given gates or with random ones, and are changed by one
operation after the other. An operation that is refused belongs to the history too, and a circuit
that is put behind another one has a history of its own. -/
inductive Obtained : Circuit → Prop
  | empty (n : ℕ) : Obtained (Circuit.empty n)
  | ofGates {n : ℕ} {gates : List Gate} {c : Circuit} (h : Circuit.ofGates n gates = .ok c) :
    Obtained c
  | random (n count : ℕ) (g : Generator) : Obtained (Circuit.random n count g).1
  | perform {c : Circuit} (h : Obtained c) (op : Operation)
    (hother : ∀ d, op = .append d → Obtained d) : Obtained (op.perform.exec c).2

/-- Other gates on the same wires keep a circuit well formed. -/
theorem WellFormed.withGates (h : c.WellFormed) {gates : List Gate}
    (hgates : ∀ g ∈ gates, IsGate c.qubits g) : ({ c with gates := gates } : Circuit).WellFormed :=
  ⟨hgates, h.layout⟩

/-- **One operation keeps a circuit well formed.** -/
theorem WellFormed.change (hc : c.WellFormed) {op : Operation} (hop : op.Fits c)
    (hother : ∀ d, op = .append d → d.WellFormed) : (op.change c).WellFormed := by
  have hfront {g : Gate} (hg : IsGate c.qubits g) :
      (Operation.change c (.pushFront g)).WellFormed :=
    hc.withGates (List.forall_mem_cons.mpr ⟨hg, hc.gates⟩)
  have hbehind {g : Gate} (hg : IsGate c.qubits g) :
      (Operation.change c (.push g)).WellFormed :=
    hc.append (d := ⟨c.qubits, [g], none⟩) ⟨by simpa using hg, by simp⟩ rfl
  cases op with
  | push g => exact hbehind hop
  | pushFront g => exact hfront hop
  | recordRow t s => exact hfront hop
  | recordCol t s => exact hbehind hop
  | append other => exact hc.append (hother other rfl) hop
  | inverse => exact hc.inverse
  | transpose => exact hc.transpose
  | setLayout l =>
    refine ⟨hc.gates, ?_⟩
    rintro l' ⟨⟩
    exact hop

/-- Gates that are all accepted leave a well-formed circuit. -/
theorem WellFormed.foldlM_push {gates : List Gate} (hc : c.WellFormed)
    (h : gates.foldlM push c = .ok d) : d.WellFormed := by
  induction gates generalizing c with
  | nil => exact Except.ok.inj h ▸ hc
  | cons g gates ih =>
    rw [List.foldlM_cons] at h
    cases hpush : c.push g with
    | error e =>
      rw [hpush] at h
      cases h
    | ok c' =>
      rw [hpush] at h
      obtain ⟨hfits, rfl⟩ := (Operation.push g).result_eq_ok_iff.mp hpush
      exact ih (hc.change hfits nofun) h

/-- The second wire is drawn from the others, by leaving out the number of the first. -/
theorem always_random_gate {n : ℕ} (hn : 2 ≤ n) : Draw.Always (IsGate n) (Gate.random n) := by
  refine (Draw.always_below (by omega)).bind fun control hcontrol => ?_
  refine (Draw.always_below (by omega)).bind fun target htarget => Draw.always_pure ?_
  unfold IsGate
  dsimp only
  split <;> omega

/-- A random circuit is well formed, whatever is drawn. -/
theorem always_random (n count : ℕ) : Draw.Always WellFormed (Circuit.random n count) := by
  unfold Circuit.random
  split
  · exact Draw.always_pure (wellFormed_empty n)
  · next hn =>
    refine (Draw.always_times (always_random_gate (by omega)) count).bind fun gates hgates => ?_
    exact Draw.always_pure ((wellFormed_empty n).withGates hgates)

/-- **A circuit with a history is well formed.** -/
theorem Obtained.wellFormed (h : c.Obtained) : c.WellFormed := by
  induction h with
  | empty n => exact wellFormed_empty n
  | ofGates h => exact (wellFormed_empty _).foldlM_push h
  | random n count g => exact always_random n count g
  | @perform c _ op _ hc hother =>
    -- a refused operation leaves the circuit, and so its well-formedness, alone
    rw [op.exec_perform]
    cases hresult : op.result c with
    | error e => exact hc
    | ok d =>
      obtain ⟨hfits, rfl⟩ := op.result_eq_ok_iff.mp hresult
      exact hc.change hfits hother

/-- **Circuits with a history.** Their gates join two different wires, and a layout consists of two
permutations of the wires. Every operation on such a circuit goes through if it fits and is refused
otherwise, and a refused one leaves the circuit exactly as it was. The gates are row additions that
a matrix with a row for each wire admits, so only a lack of room can keep the matrix of the circuit
or its depth from being computed. -/
theorem obtained_specification (h : c.Obtained) :
    (∀ g ∈ c.gates, g.control < c.qubits ∧ g.target < c.qubits ∧ g.control ≠ g.target) ∧
    (∀ l ∈ c.layout, IsPermutation l.rowPerm c.qubits ∧ IsPermutation l.colPerm c.qubits) ∧
    (∀ op : Operation,
      (op.Fits c → op.result c = .ok (op.change c) ∧ op.perform.exec c = (.ok (), op.change c)) ∧
      (¬ op.Fits c → ∃ e, op.result c = .error e ∧ op.perform.exec c = (.error e, c))) ∧
    c.parityMap = (requireShape c.qubits c.qubits).map (fun _ => c.parity) ∧
    (∀ M : ParityMatrix, M.rows = c.qubits → c.applyTo M = (c.parity.mul M, none)) ∧
    c.checkedDepth =
      (if c.gates = [] then .ok () else requireRoom c.qubits).map fun _ => c.depth := by
  have hc := h.wellFormed
  refine ⟨hc.gates, hc.layout, fun op => ⟨fun hfits => ?_, fun hfits => ?_⟩, hc.parityMap_eq,
    fun M hM => applyTo_of_isGate hc.gates hM, hc.checkedDepth_eq⟩
  · have hresult : op.result c = .ok (op.change c) := op.result_eq_ok_iff.mpr ⟨hfits, rfl⟩
    rw [op.exec_perform, hresult]
    exact ⟨rfl, rfl⟩
  · rw [op.exec_perform]
    cases hresult : op.result c with
    | error e => exact ⟨e, rfl, rfl⟩
    | ok d => exact absurd (op.result_eq_ok_iff.mp hresult).1 hfits

/-- Two gates on three wires, transposed and given a layout; a gate on a fourth wire is refused, and
the circuit's own beginning, reversed, is put behind. -/
theorem obtained_specification_three :
    let start : Circuit := ⟨3, [⟨0, 1⟩, ⟨1, 2⟩], none⟩
    let placed : Circuit := ⟨3, [⟨2, 1⟩, ⟨1, 0⟩], some ⟨[1, 2, 0], [0, 2, 1]⟩⟩
    let final : Circuit :=
      ⟨3, [⟨2, 1⟩, ⟨1, 0⟩, ⟨1, 2⟩, ⟨0, 1⟩], some ⟨[1, 2, 0], [0, 2, 1]⟩⟩
    start.Obtained ∧ placed.Obtained ∧ final.Obtained ∧
      (Operation.push ⟨0, 3⟩).perform.exec placed = (.error (.qubitOutOfRange 3 3), placed) ∧
      final.parityMap = .ok final.parity ∧ final.checkedDepth = .ok 4 := by
  intro start placed final
  have hgates : ofGates 3 [⟨0, 1⟩, ⟨1, 2⟩] = .ok start := rfl
  have hstart : start.Obtained := .ofGates hgates
  have hplaced : placed.Obtained :=
    (hstart.perform .transpose nofun).perform (.setLayout ⟨[1, 2, 0], [0, 2, 1]⟩) nofun
  have hrefused : placed.Obtained := hplaced.perform (.push ⟨0, 3⟩) nofun
  have hreversed : start.inverse.Obtained := hstart.perform .inverse nofun
  have hfinal : final.Obtained := by
    refine hrefused.perform (.append start.inverse) ?_
    rintro d ⟨⟩
    exact hreversed
  obtain ⟨_, _, hoperations, _⟩ := obtained_specification hplaced
  obtain ⟨_, _, _, hmap, _, hdepth⟩ := obtained_specification hfinal
  have hroom : requireShape 3 3 = .ok () := by decide
  refine ⟨hstart, hplaced, hfinal, ?_, ?_, hdepth.trans (by decide)⟩
  · have hunfit : ¬ (Operation.push ⟨0, 3⟩).Fits placed := by
      simp [Operation.Fits, IsGate, placed]
    obtain ⟨e, hresult, hexec⟩ := (hoperations _).2 hunfit
    cases hresult
    exact hexec
  · exact hmap.trans (by rw [hroom]; rfl)

end CnotSynthesis.Circuit
