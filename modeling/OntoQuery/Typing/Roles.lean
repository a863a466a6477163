import OntoQuery.Query.Visit

/-!
# Roles

An entity stands in a body as a predicate or elsewhere, and must not do both. In a type statement
only the subject counts: `rdf:type` and the class are vocabulary.
-/

namespace OntoQuery

/-- The places at which the entities of a body stand. -/
structure Roles where
  /-- Every entity with a type, in the order in which they first stand in the body. -/
  order : List Typeable
  predicates : List Typeable
  others : List Typeable
  deriving DecidableEq, Repr

namespace Roles

/-- The entities of a statement that can have a type, each with whether it is the predicate. -/
def ofStatement (s : Statement) : List (Typeable × Bool) :=
  let places :=
    if s.isType then [(s.subject, false)]
    else [(s.subject, false), (s.predicate, true), (s.object, false)]
  places.filterMap fun (e, asPredicate) => (Typeable.ofEntity? e).map (·, asPredicate)

def ofGroup (g : Group) : Roles :=
  let places := (Group.statements g).flatMap ofStatement
  { order := (places.map (·.1)).eraseDups
    predicates := ((places.filter (·.2)).map (·.1)).eraseDups
    others := ((places.filter (!·.2)).map (·.1)).eraseDups }

/-- The first predicate that stands also elsewhere. -/
def conflict? (r : Roles) : Option Typeable :=
  r.predicates.find? (r.others.contains ·)

end Roles

end OntoQuery
