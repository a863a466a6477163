import OntoQuery.Ontology.Cardinality
import OntoQuery.Ontology.Definition
import OntoQuery.Ontology.Hierarchy

/-!
# Ontologies

An `Ontology` is the checked form of `Definitions` on top of the skeleton: every IRI is defined
once, every cardinality is well written, everything that is extended exists, nothing extends itself,
and each class and property carries all that is above and below it. `Ontology.build` makes one or
tells the first fault. Classes are read before properties, and relations are checked after both.
-/

namespace OntoQuery

/-- Why definitions make no ontology, or why a property has no single constraint. -/
inductive OntologyError where
  | unknownSuperclass (class_ superclass : Iri)
  | unknownSuperproperty (property superproperty : Iri)
  | cycle (iri : Iri)
  | duplicate (iri : Iri)
  | badCardinality (class_ property : Iri) (value : String)
  | ambiguousConstraint (property first second : Iri)
  /-- The text of the definitions is not well formed. -/
  | malformed
  deriving DecidableEq, Repr

namespace OntologyError

def quoted (s : String) : String :=
  "`" ++ s ++ "`"

def message : OntologyError → String
  | unknownSuperclass c s => "class " ++ quoted c ++ " extends unknown class " ++ quoted s
  | unknownSuperproperty p s => "property " ++ quoted p ++ " extends unknown property " ++ quoted s
  | cycle iri => "inheritance cycle through " ++ quoted iri
  | duplicate iri => quoted iri ++ " is defined more than once"
  | badCardinality c p v =>
    "class " ++ quoted c ++ " has malformed cardinality " ++ quoted v ++ " on " ++ quoted p
  | ambiguousConstraint p a b =>
    "property " ++ quoted p ++ " inherits unrelated constraints " ++ quoted a ++ " and " ++ quoted b
  | malformed => "invalid ontology JSON"

end OntologyError

/-- A class with all that is derived of it. -/
structure ClassInfo where
  iri : Iri
  directSuperclasses : List Iri
  /-- Everything above, nearest first. -/
  superclasses : List Iri
  /-- Everything below, in order of definition. -/
  subclasses : List Iri
  /-- As declared for the class itself. -/
  cardinalities : OrderedMap Iri Cardinality
  deriving DecidableEq, Repr

/-- A property with all that is derived of it. -/
structure PropertyInfo where
  iri : Iri
  directSuperproperties : List Iri
  /-- Everything above, nearest first. -/
  superproperties : List Iri
  /-- Everything below, in order of definition. -/
  subproperties : List Iri
  /-- As declared for the property itself. -/
  subjectType : Option Iri
  /-- As declared for the property itself. -/
  objectType : Option Iri
  deriving DecidableEq, Repr

/-- Classes and properties, all in the internal schema, in order of definition. -/
structure Ontology where
  classes : List ClassInfo
  properties : List PropertyInfo
  deriving DecidableEq, Repr

namespace Ontology

def readCardinality (class_ : Iri) : Iri × String → Except OntologyError (Iri × Cardinality)
  | (property, value) =>
    match Cardinality.parse? value with
    | some c => .ok (property, c)
    | none => .error (.badCardinality class_ property value)

def readCardinalities (c : ClassDefinition) :
    Except OntologyError (OrderedMap Iri Cardinality) :=
  (c.cardinalities.entries.mapM (readCardinality c.iri)).map fun entries => ⟨entries⟩

/-- The cardinalities of each class, where no class may repeat one of `seen` or an earlier one. -/
def readClasses (seen : List Iri) :
    List ClassDefinition → Except OntologyError (List (OrderedMap Iri Cardinality))
  | [] => .ok []
  | c :: cs => do
    let cardinalities ← readCardinalities c
    if c.iri ∈ seen then .error (.duplicate c.iri)
    else return cardinalities :: (← readClasses (seen ++ [c.iri]) cs)

/-- The first IRI that stands also earlier in the list. -/
def firstRepeated? (seen : List Iri) : List Iri → Option Iri
  | [] => none
  | iri :: iris => if iri ∈ seen then some iri else firstRepeated? (seen ++ [iri]) iris

/-- Fails if there is something to blame. -/
def reject {α : Type} (blame : α → OntologyError) : Option α → Except OntologyError Unit
  | some a => .error (blame a)
  | none => .ok ()

def classInfo (above : Hierarchy) (c : ClassDefinition)
    (cardinalities : OrderedMap Iri Cardinality) : ClassInfo where
  iri := c.iri
  directSuperclasses := c.superclasses
  superclasses := above.parents c.iri
  subclasses := above.below c.iri
  cardinalities := cardinalities

def propertyInfo (above : Hierarchy) (p : PropertyDefinition) : PropertyInfo where
  iri := p.iri
  directSuperproperties := p.superproperties
  superproperties := above.parents p.iri
  subproperties := above.below p.iri
  subjectType := p.subjectType
  objectType := p.objectType

/-- The ontology of exactly these definitions. -/
def ofDefinitions (defs : Definitions) : Except OntologyError Ontology := do
  let cardinalities ← readClasses [] defs.classes
  reject .duplicate (firstRepeated? [] (defs.properties.map (·.iri)))
  let classes : Hierarchy := defs.classes.map fun c => (c.iri, c.superclasses)
  let properties : Hierarchy := defs.properties.map fun p => (p.iri, p.superproperties)
  reject (fun (c, s) => .unknownSuperclass c s) classes.orphan?
  reject (fun (p, s) => .unknownSuperproperty p s) properties.orphan?
  let aboveClasses ← classes.closure.mapError .cycle
  let aboveProperties ← properties.closure.mapError .cycle
  return {
    classes := List.zipWith (classInfo aboveClasses) defs.classes cardinalities
    properties := defs.properties.map (propertyInfo aboveProperties) }

/-- The ontology of the skeleton extended by the definitions. -/
def build (defs : Definitions) : Except OntologyError Ontology :=
  ofDefinitions (.skeleton ++ defs)

/-- The ontology of the skeleton alone. -/
def base : Except OntologyError Ontology :=
  build {}

end Ontology

end OntoQuery
