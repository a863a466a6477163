/-!
# Cardinalities

How many values of a property a resource may have, and how an ontology's text spells that.
-/

namespace OntoQuery

/-- How many values of a property a resource may have. -/
inductive Cardinality where
  | mustHaveOne
  | mayHaveOne
  | mayHaveMany
  | mustHaveSome
  deriving DecidableEq, Repr

namespace Cardinality

def parse? : String → Option Cardinality
  | "1" => some mustHaveOne
  | "0-1" => some mayHaveOne
  | "0-n" => some mayHaveMany
  | "1-n" => some mustHaveSome
  | _ => none

def text : Cardinality → String
  | mustHaveOne => "1"
  | mayHaveOne => "0-1"
  | mayHaveMany => "0-n"
  | mustHaveSome => "1-n"

theorem parse?_text (c : Cardinality) : parse? c.text = some c := by
  cases c <;> rfl

/-- At least one value. -/
def isRequired : Cardinality → Bool
  | mustHaveOne | mustHaveSome => true
  | mayHaveOne | mayHaveMany => false

/-- Possibly more than one value. -/
def isMultiple : Cardinality → Bool
  | mayHaveMany | mustHaveSome => true
  | mustHaveOne | mayHaveOne => false

end Cardinality

end OntoQuery
