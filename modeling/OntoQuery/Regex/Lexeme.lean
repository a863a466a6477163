import OntoQuery.Regex.Basic
import OntoQuery.Text.Blank
import OntoQuery.Text.Letter
import OntoQuery.Text.Numeral

/-!
# The smallest parts of a regular expression

Numbers, escapes, and the blanks between them. In free layout, which the flag `x` turns on, blanks
and comments stand between almost any two characters; `skip` goes over them and `spanned` reads a
run of characters with such gaps. Every function takes the characters that are left and returns
those that are left after it.
-/

namespace OntoQuery.Regex

/-- Goes over blanks and over comments, which run from `#` to the end of the line. -/
def skipLayout : (inComment : Bool) → List Char → List Char
  | _, [] => []
  | true, c :: cs => skipLayout (c != '\n') cs
  | false, c :: cs =>
    if Text.isBlank c then skipLayout false cs
    else if c == '#' then skipLayout true cs
    else c :: cs

/-- Goes over what free layout allows between two characters. -/
def skip (free : Bool) (cs : List Char) : List Char :=
  if free then skipLayout false cs else cs

theorem length_skipLayout_le (inComment : Bool) (cs : List Char) :
    (skipLayout inComment cs).length ≤ cs.length := by
  induction cs generalizing inComment with
  | nil => cases inComment <;> simp [skipLayout]
  | cons c cs ih =>
    cases inComment with
    | true => exact Nat.le_succ_of_le (ih _)
    | false =>
      simp only [skipLayout]
      split
      · exact Nat.le_succ_of_le (ih _)
      · split
        · exact Nat.le_succ_of_le (ih _)
        · exact Nat.le_refl _

theorem length_skip_le (free : Bool) (cs : List Char) : (skip free cs).length ≤ cs.length := by
  unfold skip
  split
  · exact length_skipLayout_le _ _
  · exact Nat.le_refl _

/-- The first character past blanks and past a sign that opens a comment. -/
def peekLayout : (inComment : Bool) → List Char → Option Char
  | _, [] => none
  | inComment, c :: cs =>
    if Text.isBlank c then peekLayout inComment cs
    else if c == '#' && !inComment then peekLayout true cs
    else some c

/-- The next character, looked for past the gaps of free layout. -/
def peek (free : Bool) (cs : List Char) : Option Char :=
  if free then peekLayout false cs else cs.head?

/-- The longest run of characters with `p`, with the gaps of free layout after each. -/
def spanned (free : Bool) (p : Char → Bool) : List Char → List Char × List Char
  | [] => ([], [])
  | c :: cs =>
    if p c then
      let (run, rest) := spanned free p (skip free cs)
      (c :: run, rest)
    else ([], c :: cs)
termination_by cs => cs.length
decreasing_by exact Nat.lt_succ_of_le (length_skip_le free cs)

/-- A decimal number of 32 bits, with blanks around it. The characters left are known even if the
number is at fault. -/
def decimal (free : Bool) (cs : List Char) : Except Refusal Nat × List Char :=
  let (digits, rest) := spanned free Char.isDigit (cs.dropWhile Text.isBlank)
  let rest := if free then rest else rest.dropWhile Text.isBlank
  let n := Text.decimalNumber digits
  if digits.isEmpty then (.error .repetitionDecimalEmpty, rest)
  else if n < UInt32.size then (.ok n, rest)
  else (.error .decimalInvalid, rest)

/-- The character with that code point. -/
def scalar (n : Nat) : Except Refusal Char :=
  if n.isValidChar then .ok (Char.ofNat n) else .error .hexScalar

def isHexDigit (c : Char) : Bool :=
  (Text.hexDigit? c).isSome

/-- The number written by hexadecimal digits. -/
def hexNumber (digits : List Char) : Nat :=
  (Text.hexNumber? digits).getD 0

/-- Exactly `n` hexadecimal digits, with gaps after each. -/
def hexDigits (free : Bool) : Nat → List Char → Except Refusal (List Char × List Char)
  | 0, cs => .ok ([], cs)
  | _ + 1, [] => .error .escapeEnd
  | n + 1, c :: cs =>
    if isHexDigit c then do
      let (digits, rest) ← hexDigits free n (skip free cs)
      return (c :: digits, rest)
    else .error .hexDigit

/-- Hexadecimal digits up to a closing brace, whose opening one has been read. -/
def hexBraced (free : Bool) (cs : List Char) : Except Refusal (Char × List Char) := do
  match spanned free isHexDigit (skip free cs) with
  | (_, []) => .error .escapeEnd
  | (digits, c :: rest) =>
    if c ≠ '\x7d' then .error .hexDigit
    else if digits.isEmpty then .error .hexEmpty
    else return (← scalar (hexNumber digits), skip free rest)

/-- A character by its code point: `digits` hexadecimal digits, or any number of them in braces. -/
def hexEscape (free : Bool) (digits : Nat) (cs : List Char) :
    Except Refusal (Char × List Char) := do
  match skip free cs with
  | [] => .error .escapeEnd
  | '\x7b' :: rest => hexBraced free rest
  | cs =>
    let (ds, rest) ← hexDigits free digits cs
    return (← scalar (hexNumber ds), rest)

/-- What a single character or escape is. -/
inductive Atom where
  | char (c : Char)
  /-- A class of characters, such as `\d`. -/
  | charClass
  /-- A condition on the place, such as `\b`. -/
  | assertion
  deriving DecidableEq, Repr

/-- The name of a Unicode class: one character, or any text in braces. -/
def unicodeClass (free : Bool) (cs : List Char) : Except Refusal (Atom × List Char) :=
  match skip free cs with
  | [] => .error .escapeEnd
  | '\x7b' :: rest =>
    match spanned free (· != '\x7d') (skip free rest) with
    | (_, []) => .error .escapeEnd
    | (_, _ :: rest) => .ok (.charClass, rest)
  | '\\' :: _ => .error .unicodeClass
  | _ :: rest => .ok (.charClass, skip free rest)

def isBoundaryChar (c : Char) : Bool :=
  c.isAlpha || c == '-'

/-- What follows `\b`: the name of a special word boundary in braces, or something else, which is
left alone. -/
def wordBoundary (free : Bool) (cs : List Char) : Except Refusal (Atom × List Char) :=
  match cs with
  | '\x7b' :: rest =>
    match skip free rest with
    | [] => .error .boundaryEnd
    | c :: inside =>
      if !isBoundaryChar c then .ok (.assertion, cs)
      else
        match spanned free isBoundaryChar (c :: inside) with
        | (name, '\x7d' :: rest) =>
          if ["start", "end", "start-half", "end-half"].contains (String.ofList name) then
            .ok (.assertion, rest)
          else .error .boundaryUnrecognized
        | _ => .error .boundaryUnclosed
  | _ => .ok (.assertion, cs)

/-- An escape whose backslash has been read. -/
def escape (free : Bool) : List Char → Except Refusal (Atom × List Char)
  | [] => .error .escapeEnd
  | c :: cs =>
    if c.isDigit then .error .backreference
    else
      match c with
      | 'x' => do let (c, rest) ← hexEscape free 2 cs; return (.char c, rest)
      | 'u' => do let (c, rest) ← hexEscape free 4 cs; return (.char c, rest)
      | 'U' => do let (c, rest) ← hexEscape free 8 cs; return (.char c, rest)
      | 'p' | 'P' => unicodeClass free cs
      | 'd' | 's' | 'w' | 'D' | 'S' | 'W' => .ok (.charClass, cs)
      | 'a' => .ok (.char '\x07', cs)
      | 'f' => .ok (.char '\x0c', cs)
      | 't' => .ok (.char '\t', cs)
      | 'n' => .ok (.char '\n', cs)
      | 'r' => .ok (.char '\r', cs)
      | 'v' => .ok (.char '\x0b', cs)
      | 'A' | 'z' | 'B' | '<' | '>' => .ok (.assertion, cs)
      | 'b' => wordBoundary free cs
      | c => if c.toNat < 0x80 && !c.isAlpha then .ok (.char c, cs) else .error .escapeUnrecognized

end OntoQuery.Regex
