import OntoQuery.Vocabulary

/-!
# Schemas

Each ontology is seen through three schemas: the internal one, in which the knowledge base stores
its graph, and two that callers write in. An IRI of one schema has a counterpart in the others,
which `Iri.toInternal` and `Iri.toExternal` find. An IRI that belongs to no schema, such as one of a
core vocabulary or of a single resource, is its own counterpart.
-/

namespace OntoQuery

/-- A view of the ontologies, recognised by the namespace of an IRI. -/
inductive Schema where
  /-- As stored. -/
  | internal
  /-- Values are plain literals. -/
  | simple
  /-- Values are nodes of their own. -/
  | complex
  deriving DecidableEq, Repr

namespace Schema

def name : Schema → String
  | internal => "internal"
  | simple => "simple"
  | complex => "complex"

/-- Every internal namespace starts so. -/
def internalRoot : String := "http://www.knora.org/ontology/"

/-- Stands between the host and the path in the namespaces of callers' schemas. -/
def ontologySegment : String := "/ontology/"

/-- Ends the namespaces of a schema. -/
def ending : Schema → String
  | internal => ""
  | simple => "/simple/v2"
  | complex => "/v2"

/-- The schema whose namespaces look like this one. -/
def ofNamespace? (ns : String) : Option Schema :=
  if Text.startsWith ns internalRoot then some internal
  else
    match Text.cutAround? ontologySegment ns with
    | none => none
    | some (host, _) =>
      if !Text.startsWith host "http" then none
      else if Text.endsWith ns simple.ending then some simple
      else if Text.endsWith ns complex.ending then some complex
      else none

/-- The schema that an IRI is written in; none for core vocabularies and for data. -/
def ofIri? (iri : Iri) : Option Schema :=
  match iri.split? with
  | some (ns, _) => ofNamespace? ns
  | none => none

end Schema

/-- The predicates of value content whose name in the complex schema differs from the stored one. -/
def Iri.accessors : List (String × Iri) :=
  [("valueAsString", Base.valueHasString),
   ("textValueHasLanguage", Base.valueHasLanguage),
   ("intValueAsInt", Base.valueHasInteger),
   ("decimalValueAsDecimal", Base.valueHasDecimal),
   ("booleanValueAsBoolean", Base.valueHasBoolean),
   ("uriValueAsUri", Base.valueHasUri),
   ("dateValueHasCalendar", Base.valueHasCalendar),
   ("colorValueAsColor", Base.valueHasColor),
   ("geometryValueAsGeometry", Base.valueHasGeometry),
   ("listValueAsListNode", Base.valueHasListNode),
   ("intervalValueHasStart", Base.valueHasIntervalStart),
   ("intervalValueHasEnd", Base.valueHasIntervalEnd),
   ("timeValueAsTimeStamp", Base.valueHasTimeStamp),
   ("geonameValueAsGeonameCode", Base.valueHasGeonameCode),
   ("linkValueHasTarget", Rdf.object),
   ("linkValueHasSource", Rdf.subject)]

/-- Whether the IRI names value content in the complex schema under a name of its own. -/
def Iri.isAccessor (iri : Iri) : Bool :=
  match Text.dropStart? Complex.vocabulary iri with
  | some name => accessors.any (·.1 == name)
  | none => false

/-- The knowledge base's own namespace in a caller's schema, without the `#`. -/
def Schema.isBaseNamespace (ns : String) : Bool :=
  ns ++ "#" == Complex.vocabulary || ns ++ "#" == Simple.vocabulary

/-- The path of an ontology, without the ending of its schema. -/
def Schema.dropPathEnding (path : String) : String :=
  match Text.dropEnding? simple.ending path with
  | some p => p
  | none =>
    match Text.dropEnding? complex.ending path with
    | some p => p
    | none => path

/-- The stored counterpart of an IRI given by its schema, namespace and local name. -/
def Schema.stored (schema : Schema) (ns name : String) : Iri :=
  if isBaseNamespace ns then
    match schema, Iri.accessors.lookup name with
    | .complex, some target => target
    | _, _ => Base.vocabulary ++ name
  else
    match Text.cutAround? ontologySegment ns with
    | some (_, path) => internalRoot ++ dropPathEnding path ++ "#" ++ name
    | none => ns ++ "#" ++ name

/-- The IRI under which the knowledge base stores what this one names. -/
def Iri.toInternal (iri : Iri) : Iri :=
  match iri.split? with
  | none => iri
  | some (ns, name) =>
    match Schema.ofNamespace? ns with
    | none => iri
    | some .internal => iri
    | some schema => schema.stored ns name

/-- The name that the complex schema gives to a stored predicate. -/
def Iri.accessorName (iri : Iri) (name : String) : String :=
  match accessors.find? (·.2 == iri) with
  | some (renamed, _) => renamed
  | none => name

/-- The IRI under which callers of `schema` know a stored one, with project ontologies at `host`.
Nothing but a stored IRI is changed, and nothing is changed for the internal schema. -/
def Iri.toExternal (schema : Schema) (host : String) (iri : Iri) : Iri :=
  match schema, iri.split? with
  | .internal, _ => iri
  | _, none => iri
  | schema, some (ns, name) =>
    match Text.dropStart? Schema.internalRoot ns with
    | none => iri
    | some path =>
      if Text.startsWith iri Base.vocabulary then
        match schema with
        | .complex => Complex.vocabulary ++ iri.accessorName name
        | _ => Simple.vocabulary ++ name
      else "http://" ++ host ++ Schema.ontologySegment ++ path ++ schema.ending ++ "#" ++ name

/-- The host of project ontologies unless told otherwise. -/
def Schema.defaultHost : String := "0.0.0.0:3333"

end OntoQuery
