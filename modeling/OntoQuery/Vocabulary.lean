import OntoQuery.Text.Cut

/-!
# The vocabularies

IRIs with a meaning of their own: the core vocabularies RDF, RDFS, OWL and XSD, the knowledge base's
storage vocabulary (`Base`), and the two vocabularies that callers write queries in, one with plain
literals (`Simple`) and one with explicit value nodes (`Complex`).
-/

namespace OntoQuery

/-- An IRI as text. -/
abbrev Iri := String

def Rdf.vocabulary : String := "http://www.w3.org/1999/02/22-rdf-syntax-ns#"
def Rdfs.vocabulary : String := "http://www.w3.org/2000/01/rdf-schema#"
def Owl.vocabulary : String := "http://www.w3.org/2002/07/owl#"
def Xsd.vocabulary : String := "http://www.w3.org/2001/XMLSchema#"
def Base.vocabulary : String := "http://www.knora.org/ontology/knora-base#"
def Complex.vocabulary : String := "http://api.knora.org/ontology/knora-api/v2#"
def Simple.vocabulary : String := "http://api.knora.org/ontology/knora-api/simple/v2#"

def Rdf.type : Iri := "http://www.w3.org/1999/02/22-rdf-syntax-ns#type"
def Rdf.subject : Iri := "http://www.w3.org/1999/02/22-rdf-syntax-ns#subject"
def Rdf.object : Iri := "http://www.w3.org/1999/02/22-rdf-syntax-ns#object"

def Rdfs.label : Iri := "http://www.w3.org/2000/01/rdf-schema#label"

def Xsd.string : Iri := "http://www.w3.org/2001/XMLSchema#string"
def Xsd.integer : Iri := "http://www.w3.org/2001/XMLSchema#integer"
def Xsd.decimal : Iri := "http://www.w3.org/2001/XMLSchema#decimal"
def Xsd.boolean : Iri := "http://www.w3.org/2001/XMLSchema#boolean"
def Xsd.anyURI : Iri := "http://www.w3.org/2001/XMLSchema#anyURI"
def Xsd.dateTimeStamp : Iri := "http://www.w3.org/2001/XMLSchema#dateTimeStamp"

def Base.resource : Iri := "http://www.knora.org/ontology/knora-base#Resource"
def Base.value : Iri := "http://www.knora.org/ontology/knora-base#Value"
def Base.textValue : Iri := "http://www.knora.org/ontology/knora-base#TextValue"
def Base.intValue : Iri := "http://www.knora.org/ontology/knora-base#IntValue"
def Base.decimalValue : Iri := "http://www.knora.org/ontology/knora-base#DecimalValue"
def Base.booleanValue : Iri := "http://www.knora.org/ontology/knora-base#BooleanValue"
def Base.uriValue : Iri := "http://www.knora.org/ontology/knora-base#UriValue"
def Base.dateValue : Iri := "http://www.knora.org/ontology/knora-base#DateValue"
def Base.colorValue : Iri := "http://www.knora.org/ontology/knora-base#ColorValue"
def Base.geomValue : Iri := "http://www.knora.org/ontology/knora-base#GeomValue"
def Base.listValue : Iri := "http://www.knora.org/ontology/knora-base#ListValue"
def Base.intervalValue : Iri := "http://www.knora.org/ontology/knora-base#IntervalValue"
def Base.timeValue : Iri := "http://www.knora.org/ontology/knora-base#TimeValue"
def Base.geonameValue : Iri := "http://www.knora.org/ontology/knora-base#GeonameValue"
def Base.linkValue : Iri := "http://www.knora.org/ontology/knora-base#LinkValue"
def Base.listNode : Iri := "http://www.knora.org/ontology/knora-base#ListNode"
def Base.hasValue : Iri := "http://www.knora.org/ontology/knora-base#hasValue"
def Base.hasLinkTo : Iri := "http://www.knora.org/ontology/knora-base#hasLinkTo"
def Base.hasLinkToValue : Iri := "http://www.knora.org/ontology/knora-base#hasLinkToValue"
def Base.isMainResource : Iri := "http://www.knora.org/ontology/knora-base#isMainResource"
def Base.isDeleted : Iri := "http://www.knora.org/ontology/knora-base#isDeleted"
def Base.hasPermissions : Iri := "http://www.knora.org/ontology/knora-base#hasPermissions"
def Base.previousValue : Iri := "http://www.knora.org/ontology/knora-base#previousValue"
def Base.valueHasString : Iri := "http://www.knora.org/ontology/knora-base#valueHasString"
def Base.valueHasLanguage : Iri := "http://www.knora.org/ontology/knora-base#valueHasLanguage"
def Base.valueHasInteger : Iri := "http://www.knora.org/ontology/knora-base#valueHasInteger"
def Base.valueHasDecimal : Iri := "http://www.knora.org/ontology/knora-base#valueHasDecimal"
def Base.valueHasBoolean : Iri := "http://www.knora.org/ontology/knora-base#valueHasBoolean"
def Base.valueHasUri : Iri := "http://www.knora.org/ontology/knora-base#valueHasUri"
def Base.valueHasCalendar : Iri := "http://www.knora.org/ontology/knora-base#valueHasCalendar"
def Base.valueHasStartJDN : Iri := "http://www.knora.org/ontology/knora-base#valueHasStartJDN"
def Base.valueHasEndJDN : Iri := "http://www.knora.org/ontology/knora-base#valueHasEndJDN"
def Base.valueHasColor : Iri := "http://www.knora.org/ontology/knora-base#valueHasColor"
def Base.valueHasGeometry : Iri := "http://www.knora.org/ontology/knora-base#valueHasGeometry"
def Base.valueHasListNode : Iri := "http://www.knora.org/ontology/knora-base#valueHasListNode"
def Base.valueHasIntervalStart : Iri :=
  "http://www.knora.org/ontology/knora-base#valueHasIntervalStart"
def Base.valueHasIntervalEnd : Iri := "http://www.knora.org/ontology/knora-base#valueHasIntervalEnd"
def Base.valueHasTimeStamp : Iri := "http://www.knora.org/ontology/knora-base#valueHasTimeStamp"
def Base.valueHasGeonameCode : Iri := "http://www.knora.org/ontology/knora-base#valueHasGeonameCode"

def Simple.resource : Iri := "http://api.knora.org/ontology/knora-api/simple/v2#Resource"
def Simple.date : Iri := "http://api.knora.org/ontology/knora-api/simple/v2#Date"
def Simple.color : Iri := "http://api.knora.org/ontology/knora-api/simple/v2#Color"
def Simple.geom : Iri := "http://api.knora.org/ontology/knora-api/simple/v2#Geom"
def Simple.interval : Iri := "http://api.knora.org/ontology/knora-api/simple/v2#Interval"
def Simple.geoname : Iri := "http://api.knora.org/ontology/knora-api/simple/v2#Geoname"
def Simple.listNode : Iri := "http://api.knora.org/ontology/knora-api/simple/v2#ListNode"

/-- Whether the IRI belongs to RDF, RDFS or OWL. -/
def Iri.isCore (iri : Iri) : Bool :=
  Text.startsWith iri Rdf.vocabulary || Text.startsWith iri Rdfs.vocabulary
    || Text.startsWith iri Owl.vocabulary

/-- The part before the first `#` and the part after it. -/
def Iri.split? (iri : Iri) : Option (String × String) :=
  Text.cutAt? '#' iri

/-- The local part: after the first `#`, or else after the last `/`. -/
def Iri.localName (iri : Iri) : String :=
  match iri.split? with
  | some (_, name) => name
  | none => String.ofList (Text.afterLast '/' iri.toList)

end OntoQuery
