import OntoQuery.Json.Basic
import OntoQuery.Text.Numeral

/-!
# Reading JSON text

`Json.parse?` reads one value that takes up the whole text, with blanks around it and between its
tokens. The grammar is the strict one: no comments, no trailing commas, no byte order mark, no raw
control characters in strings.

A string is first read as code units, where `\u` gives any 16 bits; `textOfUnits?` then joins the
halves of surrogate pairs and fails on a half that stands alone.
-/

namespace OntoQuery.Json

/-- The blanks that may stand between tokens. -/
def isGap (c : Char) : Bool :=
  c == ' ' || c == '\t' || c == '\n' || c == '\r'

def skipGaps (cs : List Char) : List Char :=
  cs.dropWhile isGap

/-- What the letter after a backslash stands for. -/
def escaped? : Char → Option Nat
  | '"' => some 0x22
  | '\\' => some 0x5C
  | '/' => some 0x2F
  | 'b' => some 0x08
  | 'f' => some 0x0C
  | 'n' => some 0x0A
  | 'r' => some 0x0D
  | 't' => some 0x09
  | _ => none

/-- The code units of a string up to its closing quote, and what follows the quote. -/
def units? : List Char → Option (List Nat × List Char)
  | [] => none
  | '"' :: rest => some ([], rest)
  | '\\' :: 'u' :: a :: b :: c :: d :: rest => do
    let n ← Text.hexNumber? [a, b, c, d]
    let (units, rest) ← units? rest
    return (n :: units, rest)
  | '\\' :: e :: rest => do
    let n ← escaped? e
    let (units, rest) ← units? rest
    return (n :: units, rest)
  | c :: rest =>
    if c.toNat < 0x20 ∨ c = '\\' then none
    else do
      let (units, rest) ← units? rest
      return (c.toNat :: units, rest)

/-- The characters that code units stand for: two halves of a surrogate pair make one character, and
no other half stands for any. -/
def charsOfUnits? : List Nat → Option (List Char)
  | [] => some []
  | high :: low :: rest =>
    if 0xD800 ≤ high ∧ high ≤ 0xDBFF then
      if 0xDC00 ≤ low ∧ low ≤ 0xDFFF then
        (charsOfUnits? rest).map
          (Char.ofNat (0x10000 + (high - 0xD800) * 0x400 + (low - 0xDC00)) :: ·)
      else none
    else if 0xDC00 ≤ high ∧ high ≤ 0xDFFF then none
    else (charsOfUnits? (low :: rest)).map (Char.ofNat high :: ·)
  | [n] => if 0xD800 ≤ n ∧ n ≤ 0xDFFF then none else some [Char.ofNat n]

def textOfUnits? (units : List Nat) : Option String :=
  (charsOfUnits? units).map String.ofList

/-- A string whose opening quote has been read. -/
def string? (cs : List Char) : Option (Option String × List Char) :=
  (units? cs).map fun (units, rest) => (textOfUnits? units, rest)

/-- The leading decimal digits, and what follows them. -/
def digits (cs : List Char) : List Char × List Char :=
  (cs.takeWhile Char.isDigit, cs.dropWhile Char.isDigit)

/-- Digits without a superfluous leading zero, and what follows them. -/
def whole? (cs : List Char) : Option (Nat × List Char) :=
  match cs with
  | '0' :: rest => some (0, rest)
  | _ =>
    match digits cs with
    | ([], _) => none
    | (ds, rest) => some (Text.decimalNumber ds, rest)

/-- Skips at least one digit. -/
def skipDigits? (cs : List Char) : Option (List Char) :=
  match digits cs with
  | ([], _) => none
  | (_, rest) => some rest

/-- Skips a fraction, if there is one. -/
def skipFraction? : List Char → Option (List Char)
  | '.' :: rest => skipDigits? rest
  | cs => some cs

/-- Skips an exponent, if there is one. -/
def skipExponent? : List Char → Option (List Char)
  | e :: rest =>
    if e = 'e' ∨ e = 'E' then
      match rest with
      | '+' :: rest => skipDigits? rest
      | '-' :: rest => skipDigits? rest
      | _ => skipDigits? rest
    else some (e :: rest)
  | [] => some []

/-- A number without its sign. -/
def magnitude? (negative : Bool) (cs : List Char) : Option (Json × List Char) := do
  let (n, afterWhole) ← whole? cs
  let rest ← skipFraction? afterWhole >>= skipExponent?
  if rest.length ≠ afterWhole.length ∨ (negative ∧ n = 0) then return (real, rest)
  return (int (if negative then -n else n), rest)

mutual

/-- One value and what follows it. Each level of nesting and each further item costs one unit of
`fuel` or two, so twice the length of the text is enough. -/
def readValue : Nat → List Char → Option (Json × List Char)
  | 0, _ => none
  | fuel + 1, cs =>
    match skipGaps cs with
    | 'n' :: 'u' :: 'l' :: 'l' :: rest => some (null, rest)
    | 't' :: 'r' :: 'u' :: 'e' :: rest => some (bool true, rest)
    | 'f' :: 'a' :: 'l' :: 's' :: 'e' :: rest => some (bool false, rest)
    | '"' :: rest => (string? rest).map fun (text, rest) => (str text, rest)
    | '-' :: rest => magnitude? true rest
    | '[' :: rest =>
      match skipGaps rest with
      | ']' :: rest => some (arr [], rest)
      | _ => (readItems fuel rest).map fun (items, rest) => (arr items, rest)
    | '\x7b' :: rest =>
      match skipGaps rest with
      | '\x7d' :: rest => some (obj [], rest)
      | _ => (readMembers fuel rest).map fun (members, rest) => (obj members, rest)
    | rest => magnitude? false rest

/-- At least one item and the closing bracket. -/
def readItems : Nat → List Char → Option (List Json × List Char)
  | 0, _ => none
  | fuel + 1, cs => do
    let (item, rest) ← readValue fuel cs
    match skipGaps rest with
    | ',' :: rest =>
      let (items, rest) ← readItems fuel rest
      return (item :: items, rest)
    | ']' :: rest => return ([item], rest)
    | _ => none

/-- At least one member and the closing brace. -/
def readMembers : Nat → List Char → Option (List (Option String × Json) × List Char)
  | 0, _ => none
  | fuel + 1, cs =>
    match skipGaps cs with
    | '"' :: rest => do
      let (name, rest) ← string? rest
      match skipGaps rest with
      | ':' :: rest =>
        let (item, rest) ← readValue fuel rest
        match skipGaps rest with
        | ',' :: rest =>
          let (members, rest) ← readMembers fuel rest
          return ((name, item) :: members, rest)
        | '\x7d' :: rest => return ([(name, item)], rest)
        | _ => none
      | _ => none
    | _ => none

end

/-- The value that the text is, or `none` if the text is no JSON. -/
def parse? (text : String) : Option Json := do
  let cs := text.toList
  let (value, rest) ← readValue (2 * cs.length + 2) cs
  if (skipGaps rest).isEmpty then return value else none

end OntoQuery.Json
