import OntoQuery.Regex.Bracketed

/-!
# Reading regular expressions

`Regex.parse` reads an expression from left to right and gives its shape or the first fault. Groups
are kept on a stack of `Level`s, the innermost first. The nesting is judged last, when all else is
well.
-/

namespace OntoQuery.Regex

/-- A group that is being read. -/
structure Level where
  /-- The finished branches of its alternation. -/
  branches : List Regex := []
  /-- The items of the current branch, the last one first. -/
  items : List Regex := []
  /-- The layout to return to when the group is closed. -/
  freeOutside : Bool := false

namespace Level

def add (l : Level) (r : Regex) : Level :=
  { l with items := r :: l.items }

/-- The level at the start of a further branch. -/
def branch (l : Level) : Level :=
  { l with branches := ofItems l.items :: l.branches, items := [] }

/-- What the group has in it. -/
def close (l : Level) : Regex :=
  match l.branches with
  | [] => ofItems l.items
  | branches => either (ofItems l.items :: branches)

/-- The item that a repetition applies to, and the level without it. -/
def takeLast (l : Level) : Except Refusal (Regex × Level) :=
  match l.items with
  | [] => .error .repetitionMissing
  | r :: items =>
    if r.isRepeatable then .ok (r, { l with items }) else .error .repetitionMissing

end Level

/-- Puts the last item under a repetition. -/
def Level.repeatLast (l : Level) : Except Refusal Level := do
  let (r, l) ← l.takeLast
  return l.add (.repeated r)

/-- Goes over the sign of a lazy repetition. -/
def skipLazy : List Char → List Char
  | '?' :: rest => rest
  | cs => cs

/-- The bounds of a counted repetition, whose opening brace has been read. A fault of the first
bound shows only once a comma or the closing brace can no longer come. -/
def counted (free : Bool) (cs : List Char) : Except Refusal (Unit × List Char) := do
  let cs := skip free cs
  if cs.isEmpty then throw .repetitionUnclosed
  let (low, rest) := decimal free cs
  let (valid, rest) ← match rest with
    | [] => throw .repetitionUnclosed
    | ',' :: rest =>
      match skip free rest with
      | [] => throw .repetitionUnclosed
      | '\x7d' :: rest =>
        let _ ← low
        pure (true, '\x7d' :: rest)
      | rest =>
        let low ← low
        let (high, rest) := decimal free rest
        let high ← high
        pure (decide (low ≤ high), rest)
    | rest =>
      let _ ← low
      pure (true, rest)
  match rest with
  | '\x7d' :: rest =>
    let rest := skipLazy (skip free rest)
    if valid then return ((), rest) else throw .repetitionRange
  | _ => throw .repetitionUnclosed

/-- Whether `c` may stand in the name of a group, at its start or later. -/
def isNameChar (start : Bool) (c : Char) : Bool :=
  if start then c == '_' || Text.isAlphabetic c
  else c == '_' || c == '.' || c == '[' || c == ']' || Text.isAlphanumeric c

/-- The characters of a name up to `>`. -/
def nameChars (start : Bool) : List Char → Except Refusal (List Char × List Char)
  | [] => .error .nameUnclosed
  | '>' :: rest => .ok ([], rest)
  | c :: rest =>
    if isNameChar start c then do
      let (name, rest) ← nameChars false rest
      return (c :: name, rest)
    else .error .nameCharacter

/-- The name of a group, which is none of `names`. -/
def groupName (names : List (List Char)) (cs : List Char) :
    Except Refusal (List Char × List Char) := do
  let (name, rest) ← nameChars true cs
  if name.isEmpty then throw .nameEmpty
  if names.contains name then throw .nameDuplicate
  return (name, rest)

/-- Flags as they are read. -/
structure Flags where
  seen : List Char := []
  negated : Bool := false
  /-- What the flags say of free layout. -/
  free : Option Bool := none
  /-- Whether the sign of negation came last. -/
  dangling : Bool := false

/-- The letters of the flags. -/
def flagLetters : List Char :=
  ['i', 'm', 's', 'U', 'u', 'R', 'x']

/-- Reads flags up to `:` or `)`, which is left. -/
def flagRun (f : Flags) : List Char → Except Refusal (Flags × List Char)
  | [] => .error .flagEnd
  | c :: cs =>
    if c = ':' ∨ c = ')' then
      if f.dangling then .error .flagNegationDangling else .ok (f, c :: cs)
    else if c = '-' then
      if f.negated then .error .flagNegationRepeated
      else flagRun { f with negated := true, dangling := true } cs
    else if !flagLetters.contains c then .error .flagUnrecognized
    else if f.seen.contains c then .error .flagDuplicate
    else
      let free := if c = 'x' then some !f.negated else f.free
      flagRun { f with seen := c :: f.seen, free, dangling := false } cs

/-- What an opening parenthesis begins. -/
inductive Opening where
  /-- Flags for the rest of the group around. -/
  | flags (free : Option Bool)
  /-- A group, possibly with flags and with a name. -/
  | group (free : Option Bool) (name : Option (List Char))

def isLookAround (cs : List Char) : Bool :=
  [['?', '='], ['?', '!'], ['?', '<', '='], ['?', '<', '!']].any (·.isPrefixOf cs)

/-- What a parenthesis, which has been read, begins. -/
def opening (free : Bool) (names : List (List Char)) (cs : List Char) :
    Except Refusal (Opening × List Char) := do
  let cs := skip free cs
  if isLookAround cs then throw .lookAround
  match cs with
  | '?' :: 'P' :: '<' :: rest | '?' :: '<' :: rest =>
    let (name, rest) ← groupName names rest
    return (.group none (some name), rest)
  | ['?'] => throw .groupUnclosed
  | '?' :: rest =>
    match ← flagRun {} rest with
    | (f, ')' :: rest) =>
      if f.seen.isEmpty then throw .repetitionMissing
      return (.flags f.free, rest)
    | (f, _ :: rest) => return (.group f.free none, rest)
    | (_, []) => throw .flagEnd
  | _ => return (.group none none, cs)

/-- Reads the items of a level and of those around it. Each step reads at least one character, so
the length of the text is enough `fuel`. -/
def readItems :
    Nat → (free : Bool) → (names : List (List Char)) → Level → List Level → List Char →
      Except Refusal Regex
  | 0, _, _, _, _, _ => .error .groupUnclosed
  | fuel + 1, free, names, level, outer, cs =>
    match skip free cs with
    | [] => if outer.isEmpty then .ok level.close else .error .groupUnclosed
    | '(' :: rest => do
      match ← opening free names rest with
      | (.flags change, rest) =>
        readItems fuel (change.getD free) names (level.add .flags) outer rest
      | (.group change name, rest) =>
        readItems fuel (change.getD free) (name.toList ++ names) { freeOutside := free }
          (level :: outer) rest
    | ')' :: rest =>
      match outer with
      | [] => .error .groupUnopened
      | around :: outer =>
        readItems fuel level.freeOutside names (around.add (.group level.close)) outer rest
    | '|' :: rest => readItems fuel free names level.branch outer rest
    | '[' :: rest => do
      let (set, rest) ← charClass free rest
      readItems fuel free names (level.add (.bracketed set)) outer rest
    | '?' :: rest | '*' :: rest | '+' :: rest => do
      let level ← level.repeatLast
      readItems fuel free names level outer (skipLazy rest)
    | '\x7b' :: rest => do
      let level ← level.repeatLast
      let ((), rest) ← counted free rest
      readItems fuel free names level outer rest
    | '\\' :: rest => do
      let (_, rest) ← escape free rest
      readItems fuel free names (level.add .leaf) outer rest
    | _ :: rest => readItems fuel free names (level.add .leaf) outer rest

/-- The shape of an expression, or the first fault in it. -/
def parse (pattern : String) : Except Refusal Regex := do
  let cs := pattern.toList
  if cs.isEmpty then throw .empty
  let r ← readItems (cs.length + 1) false [] {} [] cs
  if depthLimit < r.depth then throw .depth
  return r

end OntoQuery.Regex
