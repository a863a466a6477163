import OntoQuery.Schema

/-!
# Entities

The terms that fill the places of a statement: IRIs tagged with their schema, variables and
literals. `Entity.display` writes one the way a query does; `Literal.escape` is the part of it that
keeps quotes, backslashes and line breaks apart from the syntax.

An entity that can have a type is a `Typeable`. IRIs count by their stored form, so that a type is
found whichever schema the IRI is written in.
-/

namespace OntoQuery

/-- An IRI with the schema it is written in; a core or data IRI has none. -/
structure IriRef where
  iri : Iri
  schema : Option Schema
  deriving DecidableEq, Repr

namespace IriRef

/-- Tagged by its namespace. -/
def of (iri : Iri) : IriRef :=
  ⟨iri, Schema.ofIri? iri⟩

def display (r : IriRef) : String :=
  "<" ++ r.iri ++ ">"

end IriRef

/-- A variable, known by its name. -/
structure Variable where
  name : String
  deriving DecidableEq, Repr

def Variable.display (v : Variable) : String :=
  "?" ++ v.name

/-- A literal: its lexical form and its datatype. -/
structure Literal where
  value : String
  datatype : Iri
  deriving DecidableEq, Repr

namespace Literal

def string (value : String) : Literal :=
  ⟨value, Xsd.string⟩

def integer (n : Int) : Literal :=
  ⟨toString n, Xsd.integer⟩

def decimal (value : String) : Literal :=
  ⟨value, Xsd.decimal⟩

def boolean (b : Bool) : Literal :=
  ⟨if b then "true" else "false", Xsd.boolean⟩

def isTrue (l : Literal) : Bool :=
  l == boolean true

/-- A character of a lexical form as it stands between quotes. -/
def escapeChar (c : Char) : List Char :=
  match c with
  | '"' => ['\\', '"']
  | '\\' => ['\\', '\\']
  | '\n' => ['\\', 'n']
  | '\r' => ['\\', 'r']
  | '\t' => ['\\', 't']
  | c => [c]

/-- A lexical form as it stands between quotes. -/
def escape (value : String) : String :=
  String.ofList (value.toList.flatMap escapeChar)

def quoted (l : Literal) : String :=
  "\"" ++ escape l.value ++ "\""

def display (l : Literal) : String :=
  if l.datatype = Xsd.string then l.quoted else l.quoted ++ "^^<" ++ l.datatype ++ ">"

end Literal

/-- A term of a statement or of a filter. -/
inductive Entity where
  | iri (ref : IriRef)
  | var (v : Variable)
  | lit (l : Literal)
  deriving DecidableEq, Repr

namespace Entity

/-- An IRI tagged by its namespace. -/
def ofIri (iri : Iri) : Entity :=
  .iri (.of iri)

def iriRef? : Entity → Option IriRef
  | iri ref => some ref
  | _ => none

def var? : Entity → Option Variable
  | var v => some v
  | _ => none

def literal? : Entity → Option Literal
  | lit l => some l
  | _ => none

def isVariable (e : Entity) : Bool :=
  e.var?.isSome

def isLiteral (e : Entity) : Bool :=
  e.literal?.isSome

/-- Whether the entity is this IRI, in whichever schema it is tagged. -/
def isIri (e : Entity) (iri : Iri) : Bool :=
  match e with
  | .iri ref => ref.iri == iri
  | _ => false

def isRdfType (e : Entity) : Bool :=
  e.isIri Rdf.type

def display : Entity → String
  | iri ref => ref.display
  | var v => v.display
  | lit l => l.display

end Entity

/-- What can have a type: a variable, or an IRI in its stored form. -/
inductive Typeable where
  | var (v : Variable)
  | iri (name : Iri)
  deriving DecidableEq, Repr

namespace Typeable

def ofEntity? : Entity → Option Typeable
  | .var v => some (.var v)
  | .iri ref => some (.iri ref.iri.toInternal)
  | .lit _ => none

def display : Typeable → String
  | .var v => v.display
  | .iri name => "<" ++ name ++ ">"

end Typeable

end OntoQuery
