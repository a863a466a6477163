import OntoQuery.OrderedMap
import OntoQuery.ValueKind

/-!
# Definitions

What an ontology says of its classes and properties, before anything is checked or derived. Every
ontology stands on the same `skeleton`, the knowledge base's own classes and properties.
-/

namespace OntoQuery

/-- A class as an ontology defines it. -/
structure ClassDefinition where
  iri : Iri
  superclasses : List Iri := []
  /-- From properties to cardinalities as written. -/
  cardinalities : OrderedMap Iri String := .empty
  deriving DecidableEq, Repr

/-- A property as an ontology defines it. -/
structure PropertyDefinition where
  iri : Iri
  superproperties : List Iri := []
  /-- The class that its subjects belong to. -/
  subjectType : Option Iri := none
  /-- The class or datatype that its objects belong to. -/
  objectType : Option Iri := none
  deriving DecidableEq, Repr

/-- The classes and properties of one or more ontologies, in the order written. -/
structure Definitions where
  classes : List ClassDefinition := []
  properties : List PropertyDefinition := []
  deriving DecidableEq, Repr

namespace Definitions

instance : Append Definitions where
  append a b := ⟨a.classes ++ b.classes, a.properties ++ b.properties⟩

/-- A property of value nodes with the given class and datatype. -/
def content (iri valueClass datatype : Iri) : PropertyDefinition :=
  { iri, subjectType := some valueClass, objectType := some datatype }

/-- The knowledge base's own classes and properties. -/
def skeleton : Definitions where
  classes :=
    [{ iri := Base.resource, cardinalities := .ofList [(Rdfs.label, "1")] },
     { iri := Base.value },
     { iri := Base.listNode }]
    ++ ValueKind.all.map fun kind => { iri := kind.valueClass, superclasses := [Base.value] }
  properties :=
    [{ iri := Base.hasValue, subjectType := some Base.resource, objectType := some Base.value },
     { iri := Base.hasLinkTo, subjectType := some Base.resource, objectType := some Base.resource },
     { iri := Base.hasLinkToValue, superproperties := [Base.hasValue],
       objectType := some Base.linkValue },
     { iri := Rdfs.label, subjectType := some Base.resource, objectType := some Xsd.string },
     { iri := Base.isMainResource, subjectType := some Base.resource,
       objectType := some Xsd.boolean },
     { iri := Base.isDeleted, objectType := some Xsd.boolean },
     { iri := Base.hasPermissions, objectType := some Xsd.string },
     { iri := Base.previousValue, subjectType := some Base.value, objectType := some Base.value },
     { iri := Rdf.subject, subjectType := some Base.linkValue, objectType := some Base.resource },
     { iri := Rdf.object, subjectType := some Base.linkValue, objectType := some Base.resource },
     content Base.valueHasString Base.value Xsd.string,
     content Base.valueHasLanguage Base.textValue Xsd.string,
     content Base.valueHasInteger Base.intValue Xsd.integer,
     content Base.valueHasDecimal Base.decimalValue Xsd.decimal,
     content Base.valueHasBoolean Base.booleanValue Xsd.boolean,
     content Base.valueHasUri Base.uriValue Xsd.anyURI,
     content Base.valueHasCalendar Base.dateValue Xsd.string,
     content Base.valueHasStartJDN Base.dateValue Xsd.integer,
     content Base.valueHasEndJDN Base.dateValue Xsd.integer,
     content Base.valueHasColor Base.colorValue Xsd.string,
     content Base.valueHasGeometry Base.geomValue Xsd.string,
     content Base.valueHasListNode Base.listValue Base.listNode,
     content Base.valueHasIntervalStart Base.intervalValue Xsd.decimal,
     content Base.valueHasIntervalEnd Base.intervalValue Xsd.decimal,
     content Base.valueHasTimeStamp Base.timeValue Xsd.dateTimeStamp,
     content Base.valueHasGeonameCode Base.geonameValue Xsd.string]

end Definitions

end OntoQuery
