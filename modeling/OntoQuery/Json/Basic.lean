import OntoQuery.OrderedMap

/-!
# JSON values with their order

A value keeps what the formats read here depend on: members in the order written, repeated names
included, and whether a number was written as an integer. Of a number with a fraction or an exponent
only its presence is kept, since no format read here takes one.

Records are read by `record?`, texts by `text?` and `texts?`, and tables of texts by `textMap?`.
-/

namespace OntoQuery

/-- A JSON value. -/
inductive Json where
  | null
  | bool (b : Bool)
  /-- A number written as an integer. -/
  | int (n : Int)
  /-- A number with a fraction or an exponent, or a negative zero. -/
  | real
  /-- The text of a string; `none` if an escape names half of a surrogate pair, which is no
  character. -/
  | str (text : Option String)
  | arr (items : List Json)
  | obj (members : List (Option String × Json))
  deriving Repr

namespace Json

def text? : Json → Option String
  | str text => text
  | _ => none

def items? : Json → Option (List Json)
  | arr items => some items
  | _ => none

/-- A list of texts. -/
def texts? (j : Json) : Option (List String) := do
  (← j.items?).mapM text?

/-- A text, or `null` for none. -/
def nullableText? : Json → Option (Option String)
  | null => some none
  | j => j.text?.map some

/-- An integer that fits into 32 bits without sign. -/
def word? : Json → Option UInt32
  | int n => if 0 ≤ n ∧ n.toNat < UInt32.size then some (UInt32.ofNat n.toNat) else none
  | _ => none

/-- The first member of that name. -/
def member? (members : List (Option String × Json)) (name : String) : Option Json :=
  members.lookup (some name)

def get? (j : Json) (name : String) : Option Json :=
  match j with
  | obj members => member? members name
  | _ => none

/-- The name and the text of a member. -/
def textMember? : Option String × Json → Option (String × String)
  | (some name, str (some text)) => some (name, text)
  | _ => none

/-- A table of texts. A repeated name keeps its first place and takes the last text. -/
def textMap? : Json → Option (OrderedMap String String)
  | obj members => (members.mapM textMember?).map OrderedMap.ofList
  | _ => none

/-- The fields of a record, in the order of `names`, each present or not.

A record is an object, where unknown members are skipped, a known one stands at most once and every
name is a text; or it is the array of its first fields, of which at least `least` are there. -/
def record? (names : List String) (least : Nat) : Json → Option (List (Option Json))
  | obj members =>
    if members.any (·.1.isNone) || names.any (fun n => 1 < members.countP (·.1 == some n)) then none
    else some (names.map (member? members))
  | arr items =>
    if least ≤ items.length ∧ items.length ≤ names.length then
      some (items.map some ++ List.replicate (names.length - items.length) none)
    else none
  | _ => none

/-- Reads a field that may be missing. -/
def fieldOr {α : Type} (default : α) (read : Json → Option α) : Option Json → Option α
  | none => some default
  | some j => read j

end Json

end OntoQuery
