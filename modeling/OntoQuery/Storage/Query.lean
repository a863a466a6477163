import OntoQuery.Storage.Dialect
import OntoQuery.Storage.Flattening
import OntoQuery.Storage.Ordering
import OntoQuery.Storage.Permissions
import OntoQuery.Storage.Subtypes

/-!
# Queries to the store

A typed query becomes two queries to the store: one for a page of contents, and one that counts the
main resources on all pages. Both have the same body, which is the caller's body flattened,
expanded, given permissions and, for a store that does not reason, spelled out over subtypes, in
this order.
-/

namespace OntoQuery

/-- Constructs a page of results. -/
structure ContentQuery where
  template : List Statement
  body : Group
  mainResource : Variable
  orderBy : List OrderCriterion
  limit : UInt32
  offset : UInt32
  deriving Repr

/-- Counts the main resources. -/
structure CountQuery where
  mainResource : Variable
  body : Group
  deriving Repr

/-- What a caller's query asks of the store. -/
structure StoreQuery where
  content : ContentQuery
  count : CountQuery
  /-- The nodes in the results, each with the variable for its permissions. -/
  permissions : List PermissionBinding
  deriving Repr

/-- Results on a page, unless told otherwise. -/
def defaultPageSize : UInt32 := 25

/-- The stages that a body goes through, in order. -/
def Stage.ofBody : List Stage :=
  [.schemaFlattening, .valueExpansion, .permissionInjection, .inferenceCompensation]

/-- The group as the store needs it: as it is, or with subtypes spelled out. -/
def Group.compensate (dialect : Dialect) (o : Ontology) (g : Group) : Group :=
  if dialect.reasons then g else g.withSubtypes o

/-- A caller's body as a body for the store. -/
def Expander.storeBody (x : Expander) (dialect : Dialect) (body : Group) : Except Fault Group := do
  let expanded ← x.expand body.flatten
  return expanded.withPermissions.compensate dialect x.ontology

/-- A caller's template as a template for the store. -/
def Expander.storeTemplate (x : Expander) (template : List Statement) :
    Except Fault (List Statement) := do
  return (← x.expandTemplate (template.map Statement.flatten)).flatMap Statement.withPermission

/-- The resource that results are counted and paged by: the subject of the first statement that
marks it, or else of the first statement of the template. -/
def Query.mainResource (q : Query) : Except Fault Variable :=
  let marked := q.template.find? fun s =>
    s.hasMainPredicate && s.object == .lit (.boolean true)
  match marked <|> q.template.head? with
  | some ⟨.var v, _, _⟩ => .ok v
  | some s => .error (.fixedMainResource s.subject)
  | none => .error .emptyTemplate

/-- The results to leave out before a page, at most as many as 32 bits can tell. -/
def pageOffset (page size : UInt32) : UInt32 :=
  UInt32.ofNat (min (page.toNat * size.toNat) (UInt32.size - 1))

/-- The counting query over the same body. -/
def ContentQuery.counted (c : ContentQuery) : Except Fault CountQuery :=
  if c.body.mentions c.mainResource then .ok { mainResource := c.mainResource, body := c.body }
  else .error (.unboundMainResource c.mainResource)

/-- The order of results, where the main resource breaks ties, so that pages do not overlap. -/
def OrderCriterion.breakTies (order : List OrderCriterion) (main : Variable) :
    List OrderCriterion :=
  if order.any (·.key == main) then order else order ++ [{ key := main }]

/-- What a query with these types asks of the store. -/
def Query.toStore (q : Query) (o : Ontology) (types : Types) (dialect : Dialect)
    (pageSize : UInt32) : Except Fault StoreQuery := do
  let x : Expander := { ontology := o, types }
  let main ← q.mainResource
  let body ← x.storeBody dialect q.body
  let (order, body) ← x.orderByContent q.orderBy body
  let template ← x.storeTemplate q.template
  let content : ContentQuery :=
    { template, body, mainResource := main
      orderBy := OrderCriterion.breakTies order main
      limit := pageSize
      offset := pageOffset q.page pageSize }
  let count ← content.counted
  return { content, count, permissions := body.permissionBindings }

end OntoQuery
