import OntoQuery.Ontology.Basic

/-!
# Questions to an ontology

Subsumption, the classes and properties with a special role, the constraints a property inherits and
the cardinalities a class inherits. An IRI that the ontology does not define is below itself only,
and has no role.

A property without a constraint of its own takes the most specific one among those of its direct
superproperties; two that are unrelated are an error. The search goes up at most as many steps as
there are properties, which a hierarchy without cycles never exceeds.
-/

namespace OntoQuery.Ontology

def class? (o : Ontology) (iri : Iri) : Option ClassInfo :=
  o.classes.find? (·.iri == iri)

def property? (o : Ontology) (iri : Iri) : Option PropertyInfo :=
  o.properties.find? (·.iri == iri)

def superclasses (o : Ontology) (iri : Iri) : List Iri :=
  match o.class? iri with
  | some c => c.superclasses
  | none => []

def subclasses (o : Ontology) (iri : Iri) : List Iri :=
  match o.class? iri with
  | some c => c.subclasses
  | none => []

def superproperties (o : Ontology) (iri : Iri) : List Iri :=
  match o.property? iri with
  | some p => p.superproperties
  | none => []

def subproperties (o : Ontology) (iri : Iri) : List Iri :=
  match o.property? iri with
  | some p => p.subproperties
  | none => []

/-- Whether `sub` is `sup` or below it. -/
def isSubclassOf (o : Ontology) (sub sup : Iri) : Bool :=
  sub == sup || (o.superclasses sub).contains sup

/-- Whether `sub` is `sup` or below it. -/
def isSubpropertyOf (o : Ontology) (sub sup : Iri) : Bool :=
  sub == sup || (o.superproperties sub).contains sup

def isResourceClass (o : Ontology) (iri : Iri) : Bool :=
  (o.class? iri).isSome && o.isSubclassOf iri Base.resource

def isValueClass (o : Ontology) (iri : Iri) : Bool :=
  (o.class? iri).isSome && o.isSubclassOf iri Base.value

def isValueProperty (o : Ontology) (iri : Iri) : Bool :=
  (o.property? iri).isSome && o.isSubpropertyOf iri Base.hasValue

def isLinkProperty (o : Ontology) (iri : Iri) : Bool :=
  (o.property? iri).isSome && o.isSubpropertyOf iri Base.hasLinkTo

def isLinkValueProperty (o : Ontology) (iri : Iri) : Bool :=
  (o.property? iri).isSome && o.isSubpropertyOf iri Base.hasLinkToValue

/-- What several types have in common. -/
inductive Meet where
  /-- There is nothing to compare. -/
  | nothing
  /-- This one is below all. -/
  | mostSpecific (type : Iri)
  /-- Neither of these two is below the other. -/
  | unrelated (first second : Iri)
  deriving DecidableEq, Repr

/-- The first of the types that is below all of them, or else the first two of which neither is
below the other. -/
def meet (o : Ontology) (types : List Iri) : Meet :=
  match types.find? fun a => types.all (o.isSubclassOf a ·) with
  | some type => .mostSpecific type
  | none =>
    let unrelated := types.flatMap fun a =>
      (types.filter fun b => !o.isSubclassOf a b && !o.isSubclassOf b a).map (a, ·)
    match unrelated with
    | (a, b) :: _ => .unrelated a b
    | [] => .nothing

/-- A constraint of the property, own or inherited, looked for in at most `steps` generations. -/
def inheritedConstraint (o : Ontology) (own : PropertyInfo → Option Iri) :
    Nat → Iri → Except OntologyError (Option Iri)
  | 0, _ => .ok none
  | steps + 1, iri =>
    match o.property? iri with
    | none => .ok none
    | some p =>
      match own p with
      | some type => .ok (some type)
      | none => do
        let inherited ← p.directSuperproperties.mapM (inheritedConstraint o own steps)
        match o.meet (inherited.filterMap id).eraseDups with
        | .mostSpecific type => return some type
        | .unrelated first second => .error (.ambiguousConstraint iri first second)
        | .nothing => return none

/-- The class of a property's subjects, own or inherited. -/
def subjectType (o : Ontology) (iri : Iri) : Except OntologyError (Option Iri) :=
  o.inheritedConstraint (·.subjectType) o.properties.length iri

/-- The type of a property's objects, own or inherited. -/
def objectType (o : Ontology) (iri : Iri) : Except OntologyError (Option Iri) :=
  o.inheritedConstraint (·.objectType) o.properties.length iri

/-- The class and everything above it, nearest first; empty for an unknown class. -/
def lineage (o : Ontology) (iri : Iri) : List ClassInfo :=
  match o.class? iri with
  | some c => c :: c.superclasses.filterMap o.class?
  | none => []

/-- The cardinality of the nearest class that declares one for the property. -/
def cardinality (o : Ontology) (class_ property : Iri) : Option Cardinality :=
  (o.lineage class_).findSome? (·.cardinalities.find? property)

/-- All cardinalities of a class: its own, then those it inherits, the nearest for each property. -/
def cardinalities (o : Ontology) (class_ : Iri) : OrderedMap Iri Cardinality :=
  ((o.lineage class_).flatMap (·.cardinalities.entries)).foldl
    (fun m (property, c) => m.insertNew property c) .empty

/-- The property to the link value that goes with a link property. -/
def linkValueProperty? (o : Ontology) (link : Iri) : Option Iri :=
  if o.isLinkProperty link && (o.property? (link ++ "Value")).isSome then some (link ++ "Value")
  else none

end OntoQuery.Ontology
