import OntoQuery.Ontology.Lookup
import OntoQuery.Query.Pattern

/-!
# Subtypes spelled out

For a store that does not reason, a statement about a class or a property becomes a union: of itself
and of the same statement about each class or property below.
-/

namespace OntoQuery

namespace Statement

/-- The union of the statement and of others in its place; the statement alone if there are none. -/
def orAny (s : Statement) : List Statement → Pattern
  | [] => .statement s
  | others => .union ([.statement s] :: others.map fun other => [.statement other])

/-- The statement with its class or property also replaced by each one below it. -/
def withSubtypes (o : Ontology) (s : Statement) : Pattern :=
  match s.isType, s.predicate, s.object with
  | true, _, .iri class_ =>
    s.orAny ((o.subclasses class_.iri).map fun sub => { s with object := .ofIri sub })
  | _, .iri property, _ =>
    s.orAny ((o.subproperties property.iri).map fun sub => { s with predicate := .ofIri sub })
  | _, _, _ => .statement s

end Statement

mutual

def Pattern.withSubtypes (o : Ontology) : Pattern → Pattern
  | .statement s => s.withSubtypes o
  | .optional g => .optional (Group.withSubtypes o g)
  | .union gs => .union (Group.allWithSubtypes o gs)
  | .filter e => .filter e
  | .minus g => .minus (Group.withSubtypes o g)

/-- The group with subtypes spelled out in every statement, at any depth. -/
def Group.withSubtypes (o : Ontology) : Group → Group
  | [] => []
  | p :: ps => p.withSubtypes o :: Group.withSubtypes o ps

def Group.allWithSubtypes (o : Ontology) : List Group → List Group
  | [] => []
  | g :: gs => Group.withSubtypes o g :: Group.allWithSubtypes o gs

end

end OntoQuery
