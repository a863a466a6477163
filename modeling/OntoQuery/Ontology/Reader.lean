import OntoQuery.Json.Reader
import OntoQuery.Ontology.Basic

/-!
# Ontologies from JSON text

An ontology is exported as a record of classes and properties. Missing lists are empty, and of the
types of a property both may be missing or null in an object; written as an array, a property has
all its fields.
-/

namespace OntoQuery

def ClassDefinition.ofJson? (j : Json) : Option ClassDefinition := do
  match ← j.record? ["iri", "subClassOf", "cardinalities"] 1 with
  | [iri, superclasses, cardinalities] =>
    return {
      iri := ← (← iri).text?
      superclasses := ← Json.fieldOr [] Json.texts? superclasses
      cardinalities := ← Json.fieldOr .empty Json.textMap? cardinalities }
  | _ => none

def PropertyDefinition.ofJson? (j : Json) : Option PropertyDefinition := do
  match ← j.record? ["iri", "subPropertyOf", "subjectType", "objectType"] 4 with
  | [iri, superproperties, subjectType, objectType] =>
    return {
      iri := ← (← iri).text?
      superproperties := ← Json.fieldOr [] Json.texts? superproperties
      subjectType := ← Json.fieldOr none Json.nullableText? subjectType
      objectType := ← Json.fieldOr none Json.nullableText? objectType }
  | _ => none

def Definitions.ofJson? (j : Json) : Option Definitions := do
  match ← j.record? ["classes", "properties"] 0 with
  | [classes, properties] =>
    return {
      classes := ← Json.fieldOr [] (fun j => do (← j.items?).mapM ClassDefinition.ofJson?) classes
      properties :=
        ← Json.fieldOr [] (fun j => do (← j.items?).mapM PropertyDefinition.ofJson?) properties }
  | _ => none

/-- The ontology that a JSON value describes. -/
def Ontology.ofJson (j : Json) : Except OntologyError Ontology :=
  match Definitions.ofJson? j with
  | some defs => build defs
  | none => .error .malformed

/-- The ontology that a JSON text describes. -/
def Ontology.parse (text : String) : Except OntologyError Ontology :=
  match Json.parse? text with
  | some j => ofJson j
  | none => .error .malformed

end OntoQuery
