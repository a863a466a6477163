import OntoQuery.OrderedMap
import OntoQuery.Query.Entity

/-!
# Types of entities

What type inspection finds out of the entities of a query. A property is typed by its objects, any
other entity by its own class or datatype.
-/

namespace OntoQuery

/-- What is known of an entity. -/
inductive TypeInfo where
  /-- A property: the type of its objects, and whether it leads to values or to resources. -/
  | property (objectType : Iri) (isValue isLink : Bool)
  /-- Anything else: its class or datatype, and whether it is a resource or a value node. -/
  | entity (type : Iri) (isResource isValue : Bool)
  deriving DecidableEq, Repr

namespace TypeInfo

/-- The type of a property's objects, or the type of the entity itself. -/
def type : TypeInfo → Iri
  | property objectType _ _ => objectType
  | entity type _ _ => type

def isProperty : TypeInfo → Bool
  | property .. => true
  | entity .. => false

def isResource : TypeInfo → Bool
  | entity _ isResource _ => isResource
  | property .. => false

/-- Whether the entity is a value node. A property never is one. -/
def isValueNode : TypeInfo → Bool
  | entity _ _ isValue => isValue
  | property .. => false

end TypeInfo

/-- The types of the entities of one query, in the order in which they first stand in it. -/
abbrev Types := OrderedMap Typeable TypeInfo

namespace Types

def get? (types : Types) (e : Entity) : Option TypeInfo :=
  match Typeable.ofEntity? e with
  | some key => types.find? key
  | none => none

def isResource (types : Types) (e : Entity) : Bool :=
  match types.get? e with
  | some info => info.isResource
  | none => false

def isValueNode (types : Types) (e : Entity) : Bool :=
  match types.get? e with
  | some info => info.isValueNode
  | none => false

def isProperty (types : Types) (e : Entity) : Bool :=
  match types.get? e with
  | some info => info.isProperty
  | none => false

end Types

end OntoQuery
