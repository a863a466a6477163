import OntoQuery.Schema

/-!
# Kinds of values

The knowledge base stores a value as a node of one of thirteen classes. Each kind has its class, the
predicate that carries its content, and the datatype under which the simple schema shows it.
-/

namespace OntoQuery

/-- A kind of value node. -/
inductive ValueKind where
  | text
  | int
  | decimal
  | boolean
  | uri
  | date
  | color
  | geom
  | list
  | interval
  | time
  | geoname
  | link
  deriving DecidableEq, Repr

namespace ValueKind

def all : List ValueKind :=
  [text, int, decimal, boolean, uri, date, color, geom, list, interval, time, geoname, link]

/-- The class of the stored node. -/
def valueClass : ValueKind → Iri
  | text => Base.textValue
  | int => Base.intValue
  | decimal => Base.decimalValue
  | boolean => Base.booleanValue
  | uri => Base.uriValue
  | date => Base.dateValue
  | color => Base.colorValue
  | geom => Base.geomValue
  | list => Base.listValue
  | interval => Base.intervalValue
  | time => Base.timeValue
  | geoname => Base.geonameValue
  | link => Base.linkValue

/-- The stored predicate from the node to its content. Dates and intervals keep a readable rendering
as a string beside their parts. -/
def contentPredicate : ValueKind → Iri
  | text | date | interval => Base.valueHasString
  | int => Base.valueHasInteger
  | decimal => Base.valueHasDecimal
  | boolean => Base.valueHasBoolean
  | uri => Base.valueHasUri
  | color => Base.valueHasColor
  | geom => Base.valueHasGeometry
  | list => Base.valueHasListNode
  | time => Base.valueHasTimeStamp
  | geoname => Base.valueHasGeonameCode
  | link => Rdf.object

/-- The datatype by which the simple schema shows the kind. -/
def simpleDatatype : ValueKind → Iri
  | text => Xsd.string
  | int => Xsd.integer
  | decimal => Xsd.decimal
  | boolean => Xsd.boolean
  | uri => Xsd.anyURI
  | date => Simple.date
  | color => Simple.color
  | geom => Simple.geom
  | list => Simple.listNode
  | interval => Simple.interval
  | time => Xsd.dateTimeStamp
  | geoname => Simple.geoname
  | link => Simple.resource

/-- Whether the content is a literal and not a node. -/
def hasLiteralContent : ValueKind → Bool
  | link | list => false
  | _ => true

/-- The kind with this class. -/
def ofValueClass? (iri : Iri) : Option ValueKind :=
  all.find? (·.valueClass == iri)

/-- The kind with this datatype. A link has none, since its datatype is a class of its own. -/
def ofDatatype? (iri : Iri) : Option ValueKind :=
  (all.filter (· != link)).find? (·.simpleDatatype == iri)

/-- The kind that a type IRI stands for: a value class, a datatype, or a caller's name of a value
class. -/
def ofType? (iri : Iri) : Option ValueKind :=
  match ofValueClass? iri with
  | some kind => some kind
  | none =>
    match ofDatatype? iri with
    | some kind => some kind
    | none => ofValueClass? iri.toInternal

end ValueKind

end OntoQuery
