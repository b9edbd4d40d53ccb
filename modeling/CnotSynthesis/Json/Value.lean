import CnotSynthesis.Decimal.Reading

/-! # JSON values

* **`Json`** — a value of a JSON text. Numbers keep their literal, and the fields of an object keep
  their order and repetitions.
* **`Json.compact`**, **`Json.pretty`** — the two ways to write a value.
* **`Json.nat?`**, **`Json.float?`**, **`Json.record?`** … — a value read as something else. -/

namespace CnotSynthesis

/-- A value of a JSON text. -/
inductive Json where
  | null
  | bool (value : Bool)
  | number (literal : String)
  | string (text : String)
  | array (items : List Json)
  | object (fields : List (String × Json))
  /-- A well-formed value that stands for nothing: a string with half a surrogate pair, or an object
  with such a name. It may be skipped and not be read. -/
  | garbled

namespace Json

/-- A natural number as a value. -/
def ofNat (n : Nat) : Json := .number (Nat.repr n)

/-- A list of natural numbers as a value. -/
def ofNats (ns : List Nat) : Json := .array (ns.map ofNat)

/-- An optional value, `null` when there is none. -/
def ofOption {α : Type} (encode : α → Json) : Option α → Json
  | none => .null
  | some a => encode a

/-! ## Writing -/

/-- The hexadecimal digit of a number below 16. -/
def hexDigit (n : Nat) : Char := Char.ofNat (if n < 10 then 48 + n else 87 + n)

/-- A character inside a string: quotes, backslashes and control characters are escaped. -/
def escapeChar (c : Char) : String :=
  if c = '"' then "\\\""
  else if c = '\\' then "\\\\"
  else if c.toNat = 0x8 then "\\b"
  else if c.toNat = 0xC then "\\f"
  else if c = '\n' then "\\n"
  else if c = '\r' then "\\r"
  else if c = '\t' then "\\t"
  else if c.toNat < 0x20 then
    "\\u00" ++ String.ofList [hexDigit (c.toNat / 16), hexDigit (c.toNat % 16)]
  else c.toString

/-- A text between quotes. -/
def quote (s : String) : String := "\"" ++ String.join (s.toList.map escapeChar) ++ "\""

mutual

/-- A value without blanks. -/
def compact : Json → String
  | .null => "null"
  | .bool b => if b then "true" else "false"
  | .number literal => literal
  | .string s => quote s
  | .array items => "[" ++ ",".intercalate (compactItems items) ++ "]"
  | .object fields => "\x7b" ++ ",".intercalate (compactFields fields) ++ "\x7d"
  | .garbled => "null"

/-- The elements of an array. -/
def compactItems : List Json → List String
  | [] => []
  | v :: vs => compact v :: compactItems vs

/-- The fields of an object. -/
def compactFields : List (String × Json) → List String
  | [] => []
  | (name, v) :: rest => (quote name ++ ":" ++ compact v) :: compactFields rest

end

/-- A line break and the indentation of a nesting level. -/
def newline (level : Nat) : String := "\n" ++ String.ofList (List.replicate (2 * level) ' ')

mutual

/-- A value on several lines, indented by two blanks for each level. -/
def prettyAt (level : Nat) : Json → String
  | .array (v :: vs) =>
    "[" ++ newline (level + 1) ++
      ("," ++ newline (level + 1)).intercalate (prettyItems (level + 1) (v :: vs)) ++
      newline level ++ "]"
  | .object (f :: fs) =>
    "\x7b" ++ newline (level + 1) ++
      ("," ++ newline (level + 1)).intercalate (prettyFields (level + 1) (f :: fs)) ++
      newline level ++ "\x7d"
  | .null => "null"
  | .bool b => if b then "true" else "false"
  | .number literal => literal
  | .string s => quote s
  | .array [] => "[]"
  | .object [] => "\x7b\x7d"
  | .garbled => "null"

/-- The elements of an array, each on lines of its own. -/
def prettyItems (level : Nat) : List Json → List String
  | [] => []
  | v :: vs => prettyAt level v :: prettyItems level vs

/-- The fields of an object, each on lines of its own. -/
def prettyFields (level : Nat) : List (String × Json) → List String
  | [] => []
  | (name, v) :: rest => (quote name ++ ": " ++ prettyAt level v) :: prettyFields level rest

end

/-- A value on several lines. -/
def pretty (v : Json) : String := prettyAt 0 v

/-! ## Reading a value as something else -/

/-- Natural numbers are those of a 64-bit word, written without fraction and exponent. -/
def nat? : Json → Option Nat
  | .number literal => (Decimal.Literal.ofText literal).toNat? UInt64.size
  | _ => none

/-- Every number can be read as a floating-point number unless it is too large. -/
def float? : Json → Option Float
  | .number literal => (Decimal.Literal.ofText literal).toFloat?
  | _ => none

/-- A truth value. -/
def bool? : Json → Option Bool
  | .bool b => some b
  | _ => none

/-- A text. -/
def text? : Json → Option String
  | .string s => some s
  | _ => none

/-- An array, every element read by `read`. -/
def list? {α : Type} (read : Json → Option α) : Json → Option (List α)
  | .array items => items.mapM read
  | _ => none

/-- A value that may be `null`. -/
def option? {α : Type} (read : Json → Option α) : Json → Option (Option α)
  | .null => some none
  | v => (read v).map some

/-- A pair, written as an array of two. -/
def pair? {α β : Type} (first : Json → Option α) (second : Json → Option β) :
    Json → Option (α × β)
  | .array [a, b] => do return (← first a, ← second b)
  | _ => none

/-- A choice among names: the name itself, or an object with the name as its only field and `null`
as its value. -/
def choice? {α : Type} (find : String → Option α) : Json → Option α
  | .string s => find s
  | .object [(s, .null)] => find s
  | _ => none

/-- The value of the field `name`, if there is one. -/
def field? (v : Json) (name : String) : Option Json :=
  match v with
  | .object fields => fields.lookup name
  | _ => none

/-- The values of the named fields, for a record written as an object (a known name at most once,
unknown names skipped) or as an array of leading fields in order. -/
def record? (names : List String) : Json → Option (List (Option Json))
  | .object fields =>
    if names.all fun name => (fields.filter (·.1 == name)).length ≤ 1 then
      some (names.map fun name => fields.lookup name)
    else none
  | .array items =>
    if items.length ≤ names.length then some (names.zipIdx.map fun (_, i) => items[i]?) else none
  | _ => none

end Json

end CnotSynthesis
