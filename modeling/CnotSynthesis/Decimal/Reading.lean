/-! # Floating-point numbers read from decimal literals

A literal is read in two roundings: its leading digits, as many as fit in 64 bits, become a
floating-point number, which is then multiplied or divided by a power of ten.

* **`absorb limit n digits`** — digits appended to `n` while the result stays below the limit.
* **`Literal`** — the parts of a literal; `Literal.ofText` takes a well-formed one apart.
* **`Literal.toFloat?`** — its value; `none` when it is too large. -/

namespace CnotSynthesis.Decimal

/-- Append digits to `n` while the result stays below `limit`: the number, and how many digits were
taken. -/
def absorb (limit : Nat) : Nat → List Nat → Nat × Nat
  | n, [] => (n, 0)
  | n, d :: ds =>
    if n * 10 + d < limit then
      let (m, count) := absorb limit (n * 10 + d) ds
      (m, count + 1)
    else (n, 0)

/-- The parts of a decimal literal. -/
structure Literal where
  negative : Bool
  whole : List Nat
  fraction : List Nat
  exponent : Int
  /-- Whether the literal has neither a fraction nor an exponent. -/
  plain : Bool

/-- The value of a decimal digit. -/
def digitOf (c : Char) : Nat := c.toNat - '0'.toNat

/-- The number that a run of digits writes. -/
def numberOf (digits : List Nat) : Nat := digits.foldl (fun n d => n * 10 + d) 0

/-- Take a well-formed literal apart. -/
def Literal.ofText (text : String) : Literal :=
  let cs := text.toList
  let negative := cs.head? == some '-'
  let cs := if negative then cs.drop 1 else cs
  let whole := cs.takeWhile Char.isDigit
  let cs := cs.dropWhile Char.isDigit
  let fraction := if cs.head? == some '.' then (cs.drop 1).takeWhile Char.isDigit else []
  let cs := if cs.head? == some '.' then (cs.drop 1).dropWhile Char.isDigit else cs
  let exponent : Int :=
    match cs.drop 1 with
    | '-' :: ds => -(numberOf (ds.map digitOf) : Int)
    | '+' :: ds => numberOf (ds.map digitOf)
    | ds => numberOf (ds.map digitOf)
  { negative, whole := whole.map digitOf, fraction := fraction.map digitOf, exponent
    plain := fraction.isEmpty && cs.isEmpty }

/-- The number `x · 10^e`, by one multiplication or by divisions; `none` when it is too large. -/
def scaleByTen : Nat → Float → Int → Option Float
  | 0, x, _ => some x
  | fuel + 1, x, e =>
    if 0 ≤ e ∧ e ≤ 308 then
      let y := x * Float.ofScientific 1 false e.toNat
      if y.isInf then none else some y
    else if -308 ≤ e ∧ e < 0 then some (x / Float.ofScientific 1 false (-e).toNat)
    else if x == 0.0 then some x
    else if 0 ≤ e then none
    else scaleByTen fuel (x / Float.ofScientific 1 false 308) (e + 308)

/-- The value of a literal. -/
def Literal.toFloat? (l : Literal) : Option Float :=
  let (n, taken) := absorb UInt64.size 0 l.whole
  let (n, fractional) := absorb UInt64.size n l.fraction
  let exponent : Int := (l.whole.length - taken : Nat) - (fractional : Int) + l.exponent
  let magnitude := scaleByTen 4 (UInt64.ofNat n).toFloat exponent
  if l.negative then magnitude.map (-·) else magnitude

/-- The value of a literal that writes a natural number below `limit`. -/
def Literal.toNat? (limit : Nat) (l : Literal) : Option Nat :=
  let n := numberOf l.whole
  if l.plain && !l.negative && decide (n < limit) then some n else none

end CnotSynthesis.Decimal
