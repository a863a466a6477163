import OntoQuery.Regex.Lexeme
import OntoQuery.Text.Cut

/-!
# Bracketed character classes

A class is read with a stack of the classes around it. Each `ClassLevel` holds the items read since
the last set operator, and what stands to the left of that operator.
-/

namespace OntoQuery.Regex

/-- A class that is being read. -/
structure ClassLevel where
  /-- The operand to the left of the last set operator. -/
  left : Option CharSet := none
  /-- The items since then, the last one first. -/
  items : List CharSet := []

namespace ClassLevel

/-- The class as far as it has been read. -/
def close (l : ClassLevel) : CharSet :=
  match l.left with
  | none => .ofItems l.items
  | some left => .binary left (.ofItems l.items)

def add (l : ClassLevel) (item : CharSet) : ClassLevel :=
  { l with items := item :: l.items }

/-- The level after a set operator. -/
def operate (l : ClassLevel) : ClassLevel :=
  { left := some l.close }

end ClassLevel

/-- The names between `[:` and `:]`. -/
def asciiClasses : List String :=
  ["alnum", "alpha", "ascii", "blank", "cntrl", "digit", "graph", "lower", "print", "punct",
   "space", "upper", "word", "xdigit"]

/-- What follows a named class, if one starts here. -/
def asciiClass? (cs : List Char) : Option (List Char) := do
  let cs ← Text.dropStart ['[', ':'] cs
  let (name, rest) ← Text.cutAt ':' ((Text.dropStart ['^'] cs).getD cs)
  let rest ← Text.dropStart [']'] rest
  if asciiClasses.contains (String.ofList name) then some rest else none

/-- Fails at the end of the text, where a class is always unclosed. -/
def inClass (cs : List Char) : Except Refusal (Unit × List Char) :=
  if cs.isEmpty then .error .classUnclosed else .ok ((), cs)

/-- Opens a class, whose bracket has been read: a negation, any number of hyphens, or a bracket as
the first item. -/
def openClass (free : Bool) (cs : List Char) : Except Refusal (ClassLevel × List Char) := do
  let ((), cs) ← inClass (skip free cs)
  let ((), cs) ← inClass (match cs with | '^' :: rest => skip free rest | _ => cs)
  let (hyphens, cs) := spanned free (· == '-') cs
  let ((), cs) ← inClass cs
  match hyphens, cs with
  | [], ']' :: rest =>
    let ((), rest) ← inClass (skip free rest)
    return ({ items := [.leaf] }, rest)
  | _, _ => return ({ items := hyphens.map fun _ => .leaf }, cs)

/-- A single character or an escape inside a class. -/
def classAtom (free : Bool) : List Char → Except Refusal (Atom × List Char)
  | [] => .error .classUnclosed
  | '\\' :: rest => escape free rest
  | c :: rest => .ok (.char c, rest)

/-- The character at an end of a range. -/
def rangeEnd : Atom → Except Refusal Char
  | .char c => .ok c
  | _ => .error .classRangeLiteral

/-- An item of a class: a character, an escape or a range. -/
def classItem (free : Bool) (cs : List Char) : Except Refusal (Unit × List Char) := do
  let (first, rest) ← classAtom free cs
  let ((), rest) ← inClass (skip free rest)
  match rest with
  | '-' :: afterHyphen =>
    if peek free afterHyphen = some ']' ∨ peek free afterHyphen = some '-' then single first rest
    else
      let ((), last) ← inClass (skip free afterHyphen)
      let (last, rest) ← classAtom free last
      let low ← rangeEnd first
      let high ← rangeEnd last
      if low ≤ high then return ((), rest) else .error .classRange
  | _ => single first rest
where
  single (atom : Atom) (rest : List Char) : Except Refusal (Unit × List Char) :=
    if atom = .assertion then .error .classEscape else .ok ((), rest)

/-- Reads on in a class up to its closing bracket. Each step reads at least one character, so the
length of the text is enough `fuel`. -/
def readClass (free : Bool) : Nat → ClassLevel → List ClassLevel → List Char →
    Except Refusal (CharSet × List Char)
  | 0, _, _, _ => .error .classUnclosed
  | fuel + 1, level, outer, cs =>
    match skip free cs with
    | [] => .error .classUnclosed
    | '[' :: rest =>
      match asciiClass? ('[' :: rest) with
      | some rest => readClass free fuel (level.add .leaf) outer rest
      | none => do
        let (inner, rest) ← openClass free rest
        readClass free fuel inner (level :: outer) rest
    | ']' :: rest =>
      match outer with
      | [] => .ok (level.close, rest)
      | around :: outer =>
        readClass free fuel (around.add (.bracketed level.close)) outer rest
    | '&' :: '&' :: rest => readClass free fuel level.operate outer rest
    | '-' :: '-' :: rest => readClass free fuel level.operate outer rest
    | '~' :: '~' :: rest => readClass free fuel level.operate outer rest
    | cs => do
      let ((), rest) ← classItem free cs
      readClass free fuel (level.add .leaf) outer rest

/-- A class, whose opening bracket has been read. -/
def charClass (free : Bool) (cs : List Char) : Except Refusal (CharSet × List Char) := do
  let (level, rest) ← openClass free cs
  readClass free (rest.length + 1) level [] rest

end OntoQuery.Regex
