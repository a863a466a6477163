import OntoQuery.Query.Visit

/-!
# Flattening schemas

The first step from a query to the store: every IRI is replaced by the one under which the knowledge
base stores what it names.
-/

namespace OntoQuery

def Entity.flatten : Entity → Entity
  | .iri ref => .ofIri ref.iri.toInternal
  | e => e

def Statement.flatten (s : Statement) : Statement :=
  s.map Entity.flatten

/-- The group with every IRI in its stored form. -/
def Group.flatten (g : Group) : Group :=
  Pattern.maps Entity.flatten g

end OntoQuery
