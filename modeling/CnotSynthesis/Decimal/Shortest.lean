/-! # The shortest decimal of a floating-point number

A finite number stands for every real that rounds to it. Its shortest decimal is the one with the
fewest digits in that interval, and among those of one length the nearest. A number halfway between
two of them leaves a choice, which is the format's.

* **`Binary.ofFloat x`** — the magnitude of `x` as `m · 2^e`.
* **`Binary.span`** — the interval of reals that round to it, over one denominator.
* **`Tie`** — which of two decimals is taken when both are equally near.
* **`shortest tie x`** — digits `d` and exponent `p` with `d · 10^p` in that interval. -/

namespace CnotSynthesis.Decimal

/-- The magnitude `mantissa · 2^exponent` of a finite number; `narrow` when the next number below is
only half a unit away, as it is just above a power of two. -/
structure Binary where
  mantissa : Nat
  exponent : Int
  narrow : Bool

/-- The magnitude of `x`, read off its bits. -/
def Binary.ofFloat (x : Float) : Binary :=
  let bits := x.toBits.toNat
  let fraction : Nat := bits % (1 <<< 52)
  let biased : Nat := (bits >>> 52) % 2048
  if biased = 0 then ⟨fraction, -1074, false⟩
  else ⟨(1 <<< 52) + fraction, (biased : Int) - 1075, fraction == 0 && 1 < biased⟩

/-- The numbers `low / unit ≤ mid / unit ≤ high / unit`: the magnitude and the two ends of the
interval that rounds to it. The ends belong to the interval when `closed`. -/
structure Span where
  low : Nat
  mid : Nat
  high : Nat
  unit : Nat
  closed : Bool

/-- The interval of reals that round to `b`: half a unit on each side, a quarter below when
`narrow`; ties go to even mantissas. -/
def Binary.span (b : Binary) : Span :=
  let up := 1 <<< (b.exponent - 2).toNat
  { low := (4 * b.mantissa - if b.narrow then 1 else 2) * up
    mid := 4 * b.mantissa * up
    high := (4 * b.mantissa + 2) * up
    unit := 1 <<< (2 - b.exponent).toNat
    closed := b.mantissa % 2 == 0 }

/-- The same interval in units of `10^p`. -/
def Span.inUnitsOf (s : Span) (p : Int) : Span :=
  let up := Nat.pow 10 (-p).toNat
  { s with
    low := s.low * up, mid := s.mid * up, high := s.high * up
    unit := s.unit * Nat.pow 10 p.toNat }

/-- Which of two neighbouring whole numbers a number halfway between them goes to. -/
inductive Tie where
  /-- The even one. -/
  | even
  /-- The larger one. -/
  | up
deriving DecidableEq, Repr

/-- Whether a number halfway between `below` and its successor goes to `below`. -/
def Tie.keeps (tie : Tie) (below : Nat) : Bool :=
  match tie with
  | .even => below % 2 == 0
  | .up => false

/-- The whole number nearest to the middle of the interval among the two around it, if one of them
lies in the interval; of two equally near the one that `tie` says. -/
def Span.whole? (tie : Tie) (s : Span) : Option Nat :=
  let below := s.mid / s.unit
  let lowIn := if s.closed then s.low ≤ below * s.unit else s.low < below * s.unit
  let highIn := if s.closed then (below + 1) * s.unit ≤ s.high else (below + 1) * s.unit < s.high
  let twice := 2 * (s.mid - below * s.unit)
  if lowIn ∧ highIn then
    if twice < s.unit ∨ (twice = s.unit ∧ tie.keeps below) then some below else some (below + 1)
  else if lowIn then some below
  else if highIn then some (below + 1)
  else none

/-- The power of ten of the leading digit of `mid / unit`. -/
def Span.magnitude (s : Span) : Int :=
  if s.unit ≤ s.mid then ((Nat.toDigits 10 (s.mid / s.unit)).length : Int) - 1
  else
    let rec leading : Nat → Nat → Int
      | 0, j => -(j : Int)
      | fuel + 1, j => if s.unit ≤ s.mid * Nat.pow 10 j then -(j : Int) else leading fuel (j + 1)
    leading 400 1

/-- Trailing zeros of `digits` moved into the exponent. -/
def strip : Nat → Nat → Int → Nat × Int
  | 0, digits, p => (digits, p)
  | fuel + 1, digits, p =>
    if digits ≠ 0 ∧ digits % 10 = 0 then strip fuel (digits / 10) (p + 1) else (digits, p)

/-- Try the grids `10^p`, `10^(p-1)`, … until one has a point in the interval. -/
def searchGrid (tie : Tie) (s : Span) : Nat → Int → Nat × Int
  | 0, p => (((s.inUnitsOf p).mid) / (s.inUnitsOf p).unit, p)
  | fuel + 1, p =>
    match (s.inUnitsOf p).whole? tie with
    | some digits => strip 20 digits p
    | none => searchGrid tie s fuel (p - 1)

/-- Digits and power of ten of the shortest decimal of the magnitude of `x`; `(0, 0)` for zero. -/
def shortest (tie : Tie) (x : Float) : Nat × Int :=
  let b := Binary.ofFloat x
  if b.mantissa = 0 then (0, 0)
  else searchGrid tie b.span 17 b.span.magnitude

end CnotSynthesis.Decimal
