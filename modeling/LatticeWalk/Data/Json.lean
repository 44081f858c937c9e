import LatticeWalk.Data

/-! # Data as JSON

The text form of structured data. A reader takes the value at the head of a text and gives back what
follows it; it is told how deep it may go, which the length of the text bounds.

* `Json.readValue`: the value at the head of a text.
* `Data.ofJson?`: the value of a whole text. -/

namespace LatticeWalk

namespace Json

/-- The blanks between the parts of a value. -/
def isSpace (c : Char) : Bool := c == ' ' || c == '\t' || c == '\n' || c == '\r'

def skip (cs : List Char) : List Char := cs.dropWhile isSpace

/-- The value of a hexadecimal digit. -/
def hexDigit? (c : Char) : Option Nat :=
  if '0' ≤ c ∧ c ≤ '9' then some (c.toNat - 48)
  else if 'a' ≤ c ∧ c ≤ 'f' then some (c.toNat - 87)
  else if 'A' ≤ c ∧ c ≤ 'F' then some (c.toNat - 55)
  else none

/-- The number that four hexadecimal digits spell. -/
def hex? (a b c d : Char) : Option Nat := do
  let digits ← [a, b, c, d].mapM hexDigit?
  return digits.foldl (fun n digit => 16 * n + digit) 0

/-- The character that two halves of a pair stand for. -/
def paired? (high low : Nat) : Option Char :=
  if 0xD800 ≤ high ∧ high < 0xDC00 ∧ 0xDC00 ≤ low ∧ low < 0xE000 then
    some (Char.ofNat (0x10000 + (high - 0xD800) * 0x400 + (low - 0xDC00)))
  else none

/-- The character of a number that is not half of a pair. -/
def single? (n : Nat) : Option Char :=
  if 0xD800 ≤ n ∧ n < 0xE000 then none else some (Char.ofNat n)

/-- The character that a letter behind a backslash stands for. -/
def escaped? : Char → Option Char
  | '"' => some '"'
  | '\\' => some '\\'
  | '/' => some '/'
  | 'b' => some (Char.ofNat 8)
  | 'f' => some (Char.ofNat 12)
  | 'n' => some '\n'
  | 'r' => some '\r'
  | 't' => some '\t'
  | _ => none

/-- The characters up to the closing quote, and what follows it. -/
def readQuoted : List Char → Option (List Char × List Char)
  | '"' :: cs => some ([], cs)
  | '\\' :: 'u' :: a :: b :: c :: d :: '\\' :: 'u' :: e :: f :: g :: h :: cs =>
    match (hex? a b c d).bind fun high => (hex? e f g h).bind fun low => paired? high low with
    | some x => (readQuoted cs).map fun r => (x :: r.1, r.2)
    | none => do
      let x ← (hex? a b c d).bind single?
      let r ← readQuoted ('\\' :: 'u' :: e :: f :: g :: h :: cs)
      return (x :: r.1, r.2)
  | '\\' :: 'u' :: a :: b :: c :: d :: cs => do
    let x ← (hex? a b c d).bind single?
    let r ← readQuoted cs
    return (x :: r.1, r.2)
  | '\\' :: c :: cs => do
    let x ← escaped? c
    let r ← readQuoted cs
    return (x :: r.1, r.2)
  | c :: cs => if c.toNat < 32 then none else (readQuoted cs).map fun r => (c :: r.1, r.2)
  | [] => none

/-- The characters of which a number may consist. -/
def isNumeral (c : Char) : Bool :=
  c.isDigit || c == '-' || c == '+' || c == '.' || c == 'e' || c == 'E'

/-- A number at the head of a text. -/
def readNumber (cs : List Char) : Option (Data × List Char) :=
  let (numeral, rest) := cs.span isNumeral
  if numeral.isEmpty then none else some (.ofNumeral (String.ofList numeral), rest)

/-- A field in front of others, left out if one of these has its name: the last one counts. -/
def addField (field : String × Data) (fields : List (String × Data)) : List (String × Data) :=
  if fields.any fun f => f.1 == field.1 then fields else field :: fields

mutual

/-- The value at the head of a text. -/
def readValue : (depth : Nat) → List Char → Option (Data × List Char)
  | 0, _ => none
  | depth + 1, cs =>
    match skip cs with
    | 'n' :: 'u' :: 'l' :: 'l' :: rest => some (.null, rest)
    | 't' :: 'r' :: 'u' :: 'e' :: rest => some (.bool true, rest)
    | 'f' :: 'a' :: 'l' :: 's' :: 'e' :: rest => some (.bool false, rest)
    | '"' :: rest => (readQuoted rest).map fun r => (.text (String.ofList r.1), r.2)
    | '[' :: rest =>
      match skip rest with
      | ']' :: rest => some (.list [], rest)
      | rest => (readItems depth rest).map fun r => (.list r.1, r.2)
    | '\x7b' :: rest =>
      match skip rest with
      | '\x7d' :: rest => some (.record [], rest)
      | rest => (readFields depth rest).map fun r => (.record r.1, r.2)
    | rest => readNumber rest

/-- The items of a list up to its end. -/
def readItems : (depth : Nat) → List Char → Option (List Data × List Char)
  | 0, _ => none
  | depth + 1, cs => do
    let (item, rest) ← readValue depth cs
    match skip rest with
    | ',' :: rest =>
      let (items, rest) ← readItems depth rest
      return (item :: items, rest)
    | ']' :: rest => return ([item], rest)
    | _ => none

/-- The fields of a record up to its end. -/
def readFields : (depth : Nat) → List Char → Option (List (String × Data) × List Char)
  | 0, _ => none
  | depth + 1, cs =>
    match skip cs with
    | '"' :: rest => do
      let (name, rest) ← readQuoted rest
      match skip rest with
      | ':' :: rest =>
        let (value, rest) ← readValue depth rest
        let field := (String.ofList name, value)
        match skip rest with
        | ',' :: rest =>
          let (fields, rest) ← readFields depth rest
          return (addField field fields, rest)
        | '\x7d' :: rest => return ([field], rest)
        | _ => none
      | _ => none
    | _ => none

end

end Json

/-- The value of a JSON text. Each step of the readers takes a character or goes one level deeper
where one was taken, so twice the length bounds the depth. -/
def Data.ofJson? (s : String) : Option Data :=
  let cs := s.toList
  match Json.readValue (2 * cs.length + 2) cs with
  | some (data, rest) => if (Json.skip rest).isEmpty then some data else none
  | none => none

end LatticeWalk
