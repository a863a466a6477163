import OntoQuery.Fault
import OntoQuery.Ontology.Lookup

/-!
# Rules of type inference

A rule looks at the types found so far and adds to them: it gives an entity its first type or a more
specific one, and tells whether anything changed. A type that neither refines the known one nor is
refined by it is a fault.

Rules run one after the other (`Rule.all`); each statement and each filter is one rule. The rule
`Typist.subjectClass` is for when the others are stuck: it types a property variable by the
properties that the class of its subject has.
-/

namespace OntoQuery

/-- Stored types of entities, as found so far. -/
abbrev TypeMap := OrderedMap Typeable Iri

/-- How a candidate type stands to the known one. -/
inductive Refinement where
  | keep
  | replace
  | conflict
  deriving DecidableEq, Repr

/-- The more specific of two classes wins. A value class and the datatype of the same kind say the
same, and the class is kept. -/
def Ontology.refine (o : Ontology) (current candidate : Iri) : Refinement :=
  if o.isSubclassOf current candidate then .keep
  else if o.isSubclassOf candidate current then .replace
  else
    match ValueKind.ofType? current, ValueKind.ofType? candidate with
    | some a, some b =>
      if a = b then
        if o.isValueClass candidate && !o.isValueClass current then .replace else .keep
      else .conflict
    | _, _ => .conflict

/-- A step of inference: the types after it, and whether they changed. -/
abbrev Rule := TypeMap → Except Fault (TypeMap × Bool)

namespace Rule

def idle : Rule := fun types => .ok (types, false)

def andThen (a b : Rule) : Rule := fun types => do
  let (types, changed) ← a types
  let (types, changed') ← b types
  return (types, changed || changed')

/-- The rules in turn. -/
def all : List Rule → Rule
  | [] => idle
  | r :: rs => r.andThen (all rs)

end Rule

/-- What the rules refer to: the ontology, and the schema in which faults name types. -/
structure Typist where
  ontology : Ontology
  schema : Schema

namespace Typist

/-- Gives an entity a type. -/
def assign (t : Typist) (e : Typeable) (candidate : Iri) : Rule := fun types =>
  match types.find? e with
  | none => .ok (types.insert e candidate, true)
  | some current =>
    match t.ontology.refine current candidate with
    | .keep => .ok (types, false)
    | .replace => .ok (types.insert e candidate, true)
    | .conflict => .error (.conflictingTypes t.schema e current candidate)

/-- Gives an entity a type, if there are both. -/
def assign? (t : Typist) : Option Typeable → Option Iri → Rule
  | some e, some type => t.assign e type
  | _, _ => .idle

/-- Gives `b` the type of `a`, if it has one. -/
def share (t : Typist) (a : Typeable) (b : Option Typeable) : Rule := fun types =>
  t.assign? b (types.find? a) types

/-- An answer of the ontology, where ambiguity is a fault of `e`. -/
def ask (e : Typeable) (answer : Except OntologyError (Option Iri)) : Except Fault (Option Iri) :=
  answer.mapError (.ambiguousConstraint e)

/-- A property types itself and its object by its object type, and its subject by its subject
type. -/
def property (t : Typist) (p : Iri) (subject object : Option Typeable) : Rule := fun types => do
  if (t.ontology.property? p).isNone then return (types, false)
  let objectType ← ask (.iri p) (t.ontology.objectType p)
  let subjectType ← ask (.iri p) (t.ontology.subjectType p)
  Rule.all
    [t.assign? (some (.iri p)) objectType, t.assign? object objectType,
      t.assign? subject subjectType] types

/-- A property variable and its object have the same type. -/
def propertyVariable (t : Typist) (v : Variable) (object : Entity) : Rule := fun types =>
  match types.find? (.var v) with
  | some type => t.assign? (Typeable.ofEntity? object) (some type) types
  | none =>
    match object with
    | .lit l => t.assign (.var v) l.datatype types
    | object =>
      match Typeable.ofEntity? object with
      | some o => t.share o (some (.var v)) types
      | none => .ok (types, false)

/-- What a statement says of its entities. -/
def statement (t : Typist) (s : Statement) : Rule :=
  let subject := Typeable.ofEntity? s.subject
  if s.isType then
    match s.object with
    | .iri ref => t.assign? subject (some ref.iri.toInternal)
    | _ => .idle
  else
    match Typeable.ofEntity? s.predicate with
    | some (.iri p) => t.property p subject (Typeable.ofEntity? s.object)
    | some (.var v) => t.propertyVariable v s.object
    | none => .idle

/-- The variable that a text function reads, also through `str`. -/
def textArgument? : Expression → Option Typeable
  | .entity (.var v) => some (.var v)
  | .call .str (e :: _) => textArgument? e
  | _ => none

/-- A comparison with a literal types a variable; equality shares types, and an equal property gives
its object type. -/
def comparison (t : Typist) (op : Comparison) : Entity → Entity → Rule
  | .var v, .lit l | .lit l, .var v => t.assign (.var v) l.datatype
  | .var v, .var w =>
    if op = .eq then
      Rule.andThen (t.share (.var v) (some (.var w))) (t.share (.var w) (some (.var v)))
    else .idle
  | .var v, .iri ref | .iri ref, .var v =>
    if op = .eq then fun types => do
      let objectType ← ask (.var v) (t.ontology.objectType ref.iri.toInternal)
      t.assign? (some (.var v)) objectType types
    else .idle
  | _, _ => .idle

/-- What a filter says of its variables. -/
def filter (t : Typist) : Expression → Rule
  | .and left right => Rule.andThen (t.filter left) (t.filter right)
  | .or left right => Rule.andThen (t.filter left) (t.filter right)
  | .not inner => t.filter inner
  | .compare (.entity a) op (.entity b) => t.comparison op a b
  | .call .regex (e :: _) => t.assign? (textArgument? e) (some Xsd.string)
  | .call .lang (e :: _) => t.assign? (textArgument? e) (some Xsd.string)
  | .call .langMatches (e :: _) => t.filter e
  | _ => .idle

/-- The object types of the value and link properties that a class has. -/
def objectTypes (t : Typist) (e : Typeable) (class_ : Iri) : Except Fault (List Iri) := do
  let properties := (t.ontology.cardinalities class_).keys.filter fun p =>
    t.ontology.isValueProperty p || t.ontology.isLinkProperty p
  let types ← properties.mapM fun p => ask e (t.ontology.objectType p)
  return (types.filterMap id).eraseDups

/-- Types a property variable by the class of its subject, if neither it nor its object has a
type. -/
def subjectClass (t : Typist) (s : Statement) : Rule := fun types =>
  match Typeable.ofEntity? s.subject, s.predicate, Typeable.ofEntity? s.object with
  | some subject, .var v, some object =>
    if types.contains (.var v) || types.contains object then .ok (types, false)
    else
      match types.find? subject with
      | none => .ok (types, false)
      | some class_ => do
        match t.ontology.meet (← t.objectTypes (.var v) class_) with
        | .mostSpecific type => t.assign (.var v) type types
        | .unrelated first second =>
          .error (.unrelatedObjects t.schema (.var v) class_ first second)
        | .nothing => return (types, false)
  | _, _, _ => .ok (types, false)

end Typist

end OntoQuery
