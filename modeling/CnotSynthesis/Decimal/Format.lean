import CnotSynthesis.Decimal.Shortest

/-! # Floating-point numbers as text

Both formats write the digits of `Decimal.shortest`; they differ in their decisions only.

* **`Format.document`** — whole numbers keep `.0`, and magnitudes below `10^-5` or from `10^16` on
  are written with an exponent; a half goes to the even digit.
* **`Format.message`** — never an exponent, and no `.0`; a half goes up. -/

namespace CnotSynthesis.Decimal

/-- The decisions of a number format. -/
structure Format where
  /-- Whether a whole number ends in `.0`. -/
  pointZero : Bool
  /-- Positions of the decimal point, counted from the first digit, that are written out. -/
  positional : Int → Bool
  /-- Where a number halfway between two shortest decimals goes. -/
  tie : Tie

/-- Documents: `0.8`, `1.0`, `0.00001`, `1e-6`, `1.5e-6`. -/
def Format.document : Format where
  pointZero := true
  positional point := -5 < point && point ≤ 16
  tie := .even

/-- Messages: `2`, `1.5`, `-0.0000001`, `1000000000000000000000`. -/
def Format.message : Format where
  pointZero := false
  positional _ := true
  tie := .up

/-- A run of zeros. -/
def zeroText (n : Nat) : String := String.ofList (List.replicate n '0')

/-- A whole number in decimal, with its sign. -/
def intText (n : Int) : String := if n < 0 then "-" ++ Nat.repr n.natAbs else Nat.repr n.natAbs

/-- The digits `digits · 10^p` laid out. -/
def Format.magnitude (f : Format) (digits : Nat) (p : Int) : String :=
  let text := Nat.repr digits
  let point : Int := text.length + p
  if digits = 0 then if f.pointZero then "0.0" else "0"
  else if f.positional point then
    if 0 ≤ p then text ++ zeroText p.toNat ++ if f.pointZero then ".0" else ""
    else if 0 < point then
      String.ofList (text.toList.take point.toNat) ++ "." ++
        String.ofList (text.toList.drop point.toNat)
    else "0." ++ zeroText (-point).toNat ++ text
  else
    let mantissa :=
      match text.toList with
      | d :: e :: rest => String.ofList (d :: '.' :: e :: rest)
      | _ => text
    mantissa ++ "e" ++ intText (point - 1)

/-- A finite number laid out: its sign bit, then its magnitude. -/
def Format.render (f : Format) (x : Float) : String :=
  let (digits, p) := shortest f.tie x
  (if x.toBits.toNat.testBit 63 then "-" else "") ++ f.magnitude digits p

end CnotSynthesis.Decimal
