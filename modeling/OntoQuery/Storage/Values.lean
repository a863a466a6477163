import OntoQuery.Ontology.Lookup
import OntoQuery.Storage.Naming
import OntoQuery.Typing.Types

/-!
# Value expansion

The knowledge base stores values as nodes with versions. A statement with a value property becomes a
statement that leads to a node, and conditions that select the current, undeleted version of it; if
the object is the content and not the node, a further statement leads from the node to the content.
A statement with a link property stays, and the node of the link is matched beside it.

Every resource variable gets one deletion marker in the group where it first stands, and none in the
groups inside. Value nodes of objects that are no variables are numbered throughout a body.
-/

namespace OntoQuery

/-- What expansion refers to: stored classes and properties, and the types of the query's
entities. -/
structure Expander where
  ontology : Ontology
  types : Types

/-- The statement that a node is not deleted. -/
def Statement.deletionMarker (node : Entity) : Statement :=
  ⟨node, .ofIri Base.isDeleted, .lit (.boolean false)⟩

/-- Whether the statement says of a variable that it is not deleted. -/
def Statement.isDeletionMarker (s : Statement) : Bool :=
  s.subject.isVariable && s.predicate.isIri Base.isDeleted && s.object == .lit (.boolean false)

/-- How a statement leads from its subject to its object. -/
inductive Passage where
  /-- As it stands. -/
  | direct
  /-- By way of a value node. -/
  | value
  /-- By a link property, with the node of the link beside it. -/
  | link (property : Iri)
  deriving DecidableEq, Repr

namespace Expander

/-- How the statement is to be matched in the store. -/
def passage (x : Expander) (s : Statement) : Except Fault Passage :=
  match s.predicate with
  | .iri ref =>
    if ref.iri = Rdf.type then .ok .direct
    else if x.ontology.isLinkProperty ref.iri then .ok (.link ref.iri)
    else if x.ontology.isValueProperty ref.iri then .ok .value
    else .ok .direct
  | .var _ =>
    match x.types.get? s.predicate with
    | some (.property _ isValue isLink) =>
      if isLink then .error (.linkPropertyVariable s)
      else if isValue then .ok .value
      else .ok .direct
    | _ => .ok .direct
  | .lit _ => .error (.literalPredicate s)

/-- Whether the object of a value statement is a value node already. -/
def objectIsNode (x : Expander) (s : Statement) : Bool :=
  !s.object.isLiteral && x.types.isValueNode s.object

/-- The value node of a statement, and how many nodes are numbered after it. -/
def node (x : Expander) (s : Statement) (numbered : Nat) : Entity × Nat :=
  if x.objectIsNode s then (s.object, numbered)
  else if s.object.isVariable then
    (.var (.valueNode s.subject s.predicate s.object 0), numbered)
  else (.var (.valueNode s.subject s.predicate s.object (numbered + 1)), numbered + 1)

/-- The conditions that a value node is neither deleted nor superseded. -/
def current (node : Entity) : Group :=
  let newer := Variable.newerVersion node
  [.statement (.deletionMarker node),
   .optional [.triple (.var newer) (.ofIri Base.previousValue) node],
   .filter (.not (.bound newer))]

/-- The type of an object that is read by its content. -/
def contentType? (x : Expander) : Entity → Option Iri
  | .lit l => some l.datatype
  | e => (x.types.get? e).map (·.type)

/-- The statement from a value node to its content. -/
def content (x : Expander) (s : Statement) (node : Entity) : Except Fault Pattern :=
  match x.contentType? s.object with
  | none => .error (.untypedValue s)
  | some type =>
    match ValueKind.ofType? type with
    | none => .error (.notValueType s type)
    | some kind =>
      if kind.hasLiteralContent then .ok (.triple node (.ofIri kind.contentPredicate) s.object)
      else .error (.valueWithoutNode s)

/-- A statement by way of a value node. -/
def expandValue (x : Expander) (s : Statement) (numbered : Nat) : Except Fault (Group × Nat) := do
  let (node, numbered) := x.node s numbered
  let selected := .triple s.subject s.predicate node :: current node
  if x.objectIsNode s then return (selected, numbered)
  else return (selected ++ [← x.content s node], numbered)

/-- A link statement with the node of the link. -/
def expandLink (x : Expander) (s : Statement) (property : Iri) : Except Fault Group :=
  match x.ontology.linkValueProperty? property with
  | none => .error (.noLinkValueProperty s)
  | some linkValueProperty =>
    if s.object.isLiteral then .error (.linkToLiteral s)
    else
      let link := .var (.linkValue s.subject property s.object)
      .ok
        [.statement s,
         .triple s.subject (.ofIri linkValueProperty) link,
         .triple link (.ofIri Rdf.object) s.object,
         .statement (.deletionMarker link)]

def expandStatement (x : Expander) (s : Statement) (numbered : Nat) :
    Except Fault (Group × Nat) := do
  match ← x.passage s with
  | .direct => return ([.statement s], numbered)
  | .value => x.expandValue s numbered
  | .link property => return (← x.expandLink s property, numbered)

/-- The resource variables of a statement that are not yet marked. -/
def unmarked (x : Expander) (marked : List Variable) (s : Statement) : List Variable :=
  (([s.subject, s.object].filter x.types.isResource).filterMap Entity.var?).eraseDups.filter
    (· ∉ marked)

mutual

/-- A pattern expanded, with the marked variables and the number of numbered nodes after it. -/
def expandPattern (x : Expander) :
    Pattern → (marked : List Variable) → (numbered : Nat) →
      Except Fault (Group × List Variable × Nat)
  | .statement s, marked, numbered => do
    let (expanded, numbered) ← x.expandStatement s numbered
    let new := x.unmarked marked s
    let markers := new.map fun v => .statement (.deletionMarker (.var v))
    return (expanded ++ markers, marked ++ new, numbered)
  | .optional g, marked, numbered => do
    let (g, numbered) ← x.expandGroup g marked numbered
    return ([.optional g], marked, numbered)
  | .union gs, marked, numbered => do
    let (gs, numbered) ← x.expandGroups gs marked numbered
    return ([.union gs], marked, numbered)
  | .filter e, marked, numbered => .ok ([.filter e], marked, numbered)
  | .minus g, marked, numbered => do
    let (g, numbered) ← x.expandGroup g marked numbered
    return ([.minus g], marked, numbered)

/-- A group expanded inside groups where `marked` have markers. -/
def expandGroup (x : Expander) :
    Group → (marked : List Variable) → (numbered : Nat) → Except Fault (Group × Nat)
  | [], _, numbered => .ok ([], numbered)
  | p :: ps, marked, numbered => do
    let (first, marked, numbered) ← x.expandPattern p marked numbered
    let (rest, numbered) ← x.expandGroup ps marked numbered
    return (first ++ rest, numbered)

def expandGroups (x : Expander) :
    List Group → (marked : List Variable) → (numbered : Nat) → Except Fault (List Group × Nat)
  | [], _, numbered => .ok ([], numbered)
  | g :: gs, marked, numbered => do
    let (g, numbered) ← x.expandGroup g marked numbered
    let (gs, numbered) ← x.expandGroups gs marked numbered
    return (g :: gs, numbered)

end

/-- The body with values and links expanded. -/
def expand (x : Expander) (body : Group) : Except Fault Group :=
  (x.expandGroup body [] 0).map (·.1)

/-- The template with values and links expanded. Only statements can be constructed, so the
conditions on versions are left out. -/
def expandTemplate (x : Expander) (template : List Statement) : Except Fault (List Statement) := do
  return (← x.expand (template.map .statement)).filterMap Pattern.statement?

end Expander

end OntoQuery
