import CnotSynthesis.Json.Value

/-! # Reading JSON texts

The grammar is strict: no comments, no trailing commas, no leading zeros, no raw control characters
in strings; blanks (space, tab, line feed, carriage return) may stand between tokens.

* **`StringUnit`** — what a string literal is made of before surrogate escapes are paired up.
* **`Json.parse? text`** — the value of a whole text. -/

namespace CnotSynthesis.Json

/-- The characters after the blanks in front. -/
def skipBlanks (cs : List Char) : List Char :=
  cs.dropWhile fun c => c = ' ' || c = '\t' || c = '\n' || c = '\r'

/-! ## Strings -/

/-- A part of a string literal: a character, or a 16-bit code written as an escape. -/
inductive StringUnit where
  | char (c : Char)
  | code (n : Nat)

/-- The value of a hexadecimal digit. -/
def hexValue? (c : Char) : Option Nat :=
  if c.isDigit then some (c.toNat - 48)
  else if 'a' ≤ c ∧ c ≤ 'f' then some (c.toNat - 87)
  else if 'A' ≤ c ∧ c ≤ 'F' then some (c.toNat - 55)
  else none

/-- The value of four hexadecimal digits. -/
def hexCode? (a b c d : Char) : Option Nat := do
  return (((← hexValue? a) * 16 + (← hexValue? b)) * 16 + (← hexValue? c)) * 16 + (← hexValue? d)

/-- The character that a one-letter escape stands for. -/
def escaped? : Char → Option Char
  | '"' => some '"'
  | '\\' => some '\\'
  | '/' => some '/'
  | 'b' => some (Char.ofNat 8)
  | 'f' => some (Char.ofNat 12)
  | 'n' => some '\n'
  | 'r' => some '\r'
  | 't' => some '\t'
  | _ => none

/-- The units of a string literal up to its closing quote, and what follows. -/
def readUnits : List Char → Option (List StringUnit × List Char)
  | [] => none
  | '"' :: rest => some ([], rest)
  | '\\' :: 'u' :: a :: b :: c :: d :: rest => do
    let n ← hexCode? a b c d
    let (units, tail) ← readUnits rest
    return (.code n :: units, tail)
  | '\\' :: e :: rest => do
    let ch ← escaped? e
    let (units, tail) ← readUnits rest
    return (.char ch :: units, tail)
  | ch :: rest =>
    if ch.toNat < 0x20 ∨ ch = '\\' then none
    else do
      let (units, tail) ← readUnits rest
      return (.char ch :: units, tail)

/-- The characters of the units: two codes of a surrogate pair make one character, and half a pair
makes none. -/
def pairUp? : List StringUnit → Option (List Char)
  | [] => some []
  | .char c :: rest => (pairUp? rest).map (c :: ·)
  | .code hi :: .code lo :: rest =>
    if 0xD800 ≤ hi ∧ hi < 0xDC00 then
      if 0xDC00 ≤ lo ∧ lo < 0xE000 then
        (pairUp? rest).map (Char.ofNat (0x10000 + (hi - 0xD800) * 0x400 + (lo - 0xDC00)) :: ·)
      else none
    else if 0xDC00 ≤ hi ∧ hi < 0xE000 then none
    else (pairUp? (.code lo :: rest)).map (Char.ofNat hi :: ·)
  | .code n :: rest =>
    if 0xD800 ≤ n ∧ n < 0xE000 then none else (pairUp? rest).map (Char.ofNat n :: ·)

/-! ## Numbers -/

/-- A run of at least one digit, and what follows. -/
def readDigits (cs : List Char) : Option (List Char × List Char) :=
  let digits := cs.takeWhile Char.isDigit
  if digits.isEmpty then none else some (digits, cs.dropWhile Char.isDigit)

/-- The digits before the point: a single zero, or a run that starts with another digit. -/
def readWhole : List Char → Option (List Char × List Char)
  | '0' :: rest => some (['0'], rest)
  | cs => readDigits cs

/-- The fraction, if there is one. -/
def readFraction : List Char → Option (List Char × List Char)
  | '.' :: rest => (readDigits rest).map fun (ds, tail) => ('.' :: ds, tail)
  | cs => some ([], cs)

/-- The exponent, if there is one. -/
def readExponent : List Char → Option (List Char × List Char)
  | e :: rest =>
    if e = 'e' ∨ e = 'E' then
      match rest with
      | '+' :: more => (readDigits more).map fun (ds, tail) => (e :: '+' :: ds, tail)
      | '-' :: more => (readDigits more).map fun (ds, tail) => (e :: '-' :: ds, tail)
      | more => (readDigits more).map fun (ds, tail) => (e :: ds, tail)
    else some ([], e :: rest)
  | [] => some ([], [])

/-- A number literal, and what follows. -/
def readNumber (cs : List Char) : Option (String × List Char) := do
  let negative := cs.head? == some '-'
  let (whole, cs) ← readWhole (if negative then cs.drop 1 else cs)
  let (fraction, cs) ← readFraction cs
  let (exponent, cs) ← readExponent cs
  let sign := if negative then ['-'] else []
  return (String.ofList (sign ++ whole ++ fraction ++ exponent), cs)

/-! ## Values -/

/-- The value of an object: garbled when a name is. -/
def objectOf (fields : List (Option String × Json)) : Json :=
  match fields.mapM fun (name, v) => name.map (·, v) with
  | some named => .object named
  | none => .garbled

/-- A string literal after its opening quote. -/
def readText (cs : List Char) : Option (Option String × List Char) := do
  let (units, rest) ← readUnits cs
  return ((pairUp? units).map String.ofList, rest)

mutual

/-- A value at the front of the characters, and what follows. -/
def readValue : Nat → List Char → Option (Json × List Char)
  | 0, _ => none
  | fuel + 1, cs =>
    match cs with
    | 'n' :: 'u' :: 'l' :: 'l' :: rest => some (.null, rest)
    | 't' :: 'r' :: 'u' :: 'e' :: rest => some (.bool true, rest)
    | 'f' :: 'a' :: 'l' :: 's' :: 'e' :: rest => some (.bool false, rest)
    | '"' :: rest => do
      let (text, tail) ← readText rest
      return (text.elim .garbled .string, tail)
    | '[' :: rest =>
      match skipBlanks rest with
      | ']' :: tail => some (.array [], tail)
      | start => do
        let (items, tail) ← readItems fuel start
        return (.array items, tail)
    | '\x7b' :: rest =>
      match skipBlanks rest with
      | '\x7d' :: tail => some (.object [], tail)
      | start => do
        let (fields, tail) ← readFields fuel start
        return (objectOf fields, tail)
    | cs => do
      let (literal, tail) ← readNumber cs
      return (.number literal, tail)

/-- The elements of an array up to its closing bracket. -/
def readItems : Nat → List Char → Option (List Json × List Char)
  | 0, _ => none
  | fuel + 1, cs => do
    let (v, rest) ← readValue fuel cs
    match skipBlanks rest with
    | ',' :: more =>
      let (vs, tail) ← readItems fuel (skipBlanks more)
      return (v :: vs, tail)
    | ']' :: tail => return ([v], tail)
    | _ => none

/-- The fields of an object up to its closing brace. -/
def readFields : Nat → List Char → Option (List (Option String × Json) × List Char)
  | 0, _ => none
  | fuel + 1, cs =>
    match cs with
    | '"' :: start => do
      let (name, rest) ← readText start
      match skipBlanks rest with
      | ':' :: value =>
        let (v, rest) ← readValue fuel (skipBlanks value)
        match skipBlanks rest with
        | ',' :: more =>
          let (fs, tail) ← readFields fuel (skipBlanks more)
          return ((name, v) :: fs, tail)
        | '\x7d' :: tail => return ([(name, v)], tail)
        | _ => none
      | _ => none
    | _ => none

end

/-- The value of a text that holds one value and blanks. -/
def parse? (text : String) : Option Json :=
  let cs := text.toList
  match readValue (cs.length + 1) (skipBlanks cs) with
  | some (v, rest) => if (skipBlanks rest).isEmpty then some v else none
  | none => none

end CnotSynthesis.Json
