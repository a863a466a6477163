import OntoQuery.Ontology.Lookup
import OntoQuery.Query.Entity

/-!
# Graphs

What a store holds: triples over IRIs and literals. A store that reasons also answers with what
follows from its triples by the class and property hierarchies of an ontology; `Graph.entailed` adds
just that.
-/

namespace OntoQuery

/-- A term of a graph. -/
inductive Node where
  | iri (name : Iri)
  | lit (l : Literal)
  deriving DecidableEq, Repr

/-- A fact of a graph. -/
structure Triple where
  subject : Node
  predicate : Node
  object : Node
  deriving DecidableEq, Repr

/-- The facts that a store holds. -/
abbrev Graph := List Triple

namespace Triple

/-- The triple with its class replaced by each one above it, if it gives a type. -/
def broaderTypes (o : Ontology) (t : Triple) : List Triple :=
  match t.object with
  | .iri class_ =>
    if t.predicate = .iri Rdf.type then
      (o.superclasses class_).map fun above => { t with object := .iri above }
    else []
  | .lit _ => []

/-- The triple with its property replaced by each one above it. -/
def broaderProperties (o : Ontology) (t : Triple) : List Triple :=
  match t.predicate with
  | .iri property =>
    (o.superproperties property).map fun above => { t with predicate := .iri above }
  | .lit _ => []

end Triple

/-- The graph with what the hierarchies of the ontology add to it. -/
def Graph.entailed (o : Ontology) (g : Graph) : Graph :=
  g ++ g.flatMap fun t => t.broaderTypes o ++ t.broaderProperties o

end OntoQuery
