import OntoQuery.Typing.Roles
import OntoQuery.Typing.Rule
import OntoQuery.Typing.Scope
import OntoQuery.Typing.Types

/-!
# Type inference

The rules of a scope run until nothing changes; then the alternatives of each union are inferred,
each from the types of the scope, and what they add is merged back; and when that brings nothing
either, the rule by subject classes gets its turn. This repeats while anything changes.

Both repetitions are bounded by a number of rounds. Reaching the bound is no fault: `exhausted` is
set, every scope stops at the end of its round, and the types found so far stand. A fault that comes
later does not hide it.
-/

namespace OntoQuery

/-- Types found so far, and whether some scope has run out of rounds. -/
structure Progress where
  types : TypeMap
  exhausted : Bool
  deriving DecidableEq, Repr

/-- A fault, and whether some scope had run out of rounds before it. -/
structure Halt where
  fault : Fault
  exhausted : Bool
  deriving DecidableEq, Repr

/-- What succeeds or halts inference where it stands. -/
def Progress.attempt {α : Type} (p : Progress) (x : Except Fault α) : Except Halt α :=
  x.mapError fun fault => { fault, exhausted := p.exhausted }

/-- A step of a scope: the progress after it, and whether types changed. -/
abbrev Pass := Progress → Except Halt (Progress × Bool)

namespace Pass

def idle : Pass := fun p => .ok (p, false)

def andThen (a b : Pass) : Pass := fun p => do
  let (p, changed) ← a p
  let (p, changed') ← b p
  return (p, changed || changed')

/-- A rule as a step. -/
def ofRule (r : Rule) : Pass := fun p => do
  let (types, changed) ← p.attempt (r p.types)
  return ({ p with types }, changed)

/-- Runs a rule until it changes nothing, at most `rounds` times. -/
def settle (r : Rule) : (rounds : Nat) → Pass
  | 0 => fun p => .ok ({ p with exhausted := true }, false)
  | rounds + 1 => fun p => do
    let (p, changed) ← ofRule r p
    if changed then
      let (p, _) ← settle r rounds p
      return (p, true)
    else return (p, false)

/-- Runs a step until it changes nothing or rounds run out, here or within. -/
def iterate (step : Pass) : (rounds : Nat) → Progress → Except Halt Progress
  | 0, p => .ok { p with exhausted := true }
  | rounds + 1, p => do
    let (p, changed) ← step p
    if changed && !p.exhausted then iterate step rounds p else return p

end Pass

namespace TypeMap

/-- Adds to `merged` the types that a branch brings beyond `seed`. Two branches must not bring
different types of one entity. -/
def mergeBranch (schema : Schema) (seed merged branch : TypeMap) : Except Fault TypeMap :=
  branch.entries.foldlM (fun merged (e, type) =>
    if seed.find? e = some type then .ok merged
    else
      match merged.find? e with
      | none => .ok (merged.insert e type)
      | some previous =>
        if previous = type then .ok merged
        else .error (.conflictingBranches schema e previous type)) merged

/-- Takes over the types of entities that have none yet, and tells whether there were any. -/
def absorb (types merged : TypeMap) : TypeMap × Bool :=
  merged.entries.foldl (fun (types, changed) (e, type) =>
    if types.contains e then (types, changed) else (types.insert e type, true)) (types, false)

end TypeMap

namespace Typist

/-- One round of a scope with these statements and filters, where `unions` merges its unions. -/
def round (t : Typist) (rounds : Nat) (statements : List Statement) (filters : List Expression)
    (unions : Pass) : Pass := fun p => do
  let rules := Rule.all (statements.map t.statement ++ filters.map t.filter)
  let (p, changed) ← (Pass.settle rules rounds).andThen unions p
  if changed then return (p, true)
  else Pass.ofRule (Rule.all (statements.map t.subjectClass)) p

mutual

/-- Types the entities of a scope, starting from what is known around it. -/
def inferScope (t : Typist) (rounds : Nat) : Scope → Progress → Except Halt Progress
  | .mk statements filters unions =>
    Pass.iterate (t.round rounds statements filters (t.mergeUnions rounds unions)) rounds

/-- Merges each union of a scope into it. -/
def mergeUnions (t : Typist) (rounds : Nat) : List (List Scope) → Pass
  | [] => Pass.idle
  | branches :: unions =>
    Pass.andThen
      (fun p => do
        let (merged, exhausted) ← t.inferBranches rounds branches p.types .empty p.exhausted
        let (types, changed) := p.types.absorb merged
        return ({ types, exhausted }, changed))
      (t.mergeUnions rounds unions)

/-- What the branches of a union bring beyond `seed`, after what earlier branches brought. -/
def inferBranches (t : Typist) (rounds : Nat) :
    List Scope → (seed merged : TypeMap) → (exhausted : Bool) → Except Halt (TypeMap × Bool)
  | [], _, merged, exhausted => .ok (merged, exhausted)
  | branch :: branches, seed, merged, exhausted => do
    let p ← t.inferScope rounds branch { types := seed, exhausted }
    let merged ← p.attempt (TypeMap.mergeBranch t.schema seed merged p.types)
    t.inferBranches rounds branches seed merged p.exhausted

end

/-- Types the entities of a body. A bound of zero rounds counts as one. -/
def infer (t : Typist) (maxRounds : Nat) (body : Group) : Except Halt Progress :=
  t.inferScope (max maxRounds 1) (Scope.ofGroup body) { types := .empty, exhausted := false }

/-- A type as the query's schema shows it: where values are literals, a value class reads as its
datatype. -/
def shownType (t : Typist) (type : Iri) : Iri :=
  if t.schema = .simple ∧ t.ontology.isValueClass type then
    match ValueKind.ofType? type with
    | some kind => kind.simpleDatatype
    | none => type
  else type

/-- What is known of a property, given the type of its objects. For a variable, a datatype counts as
a value too: its content is still read through a value node. -/
def propertyInfo (t : Typist) (e : Typeable) (objectType : Iri) : TypeInfo :=
  match e with
  | .iri p =>
    .property (t.shownType objectType) (t.ontology.isValueProperty p) (t.ontology.isLinkProperty p)
  | .var _ =>
    .property (t.shownType objectType) (ValueKind.ofType? objectType).isSome
      (t.ontology.isResourceClass objectType)

/-- What is known of an entity that is no property, given its type. -/
def entityInfo (t : Typist) (type : Iri) : TypeInfo :=
  let shown := t.shownType type
  .entity shown (t.ontology.isResourceClass shown) (t.ontology.isValueClass shown)

/-- What is known of an entity of the body. A property variable has to have a type. -/
def describe (t : Typist) (roles : Roles) (types : TypeMap) (e : Typeable) :
    Except Fault (Option (Typeable × TypeInfo)) :=
  if roles.predicates.contains e then
    match types.find? e, e with
    | some objectType, _ => .ok (some (e, t.propertyInfo e objectType))
    | none, .var _ => .error (.untypedProperty e)
    | none, .iri _ => .ok none
  else .ok ((types.find? e).map fun type => (e, t.entityInfo type))

end Typist

/-- The types of the entities in the body of a query. -/
def Query.inferTypes (q : Query) (o : Ontology) (maxRounds : Nat) : Except Fault Types := do
  let roles := Roles.ofGroup q.body
  match roles.conflict? with
  | some e => .error (.mixedRoles e)
  | none =>
    let t : Typist := { ontology := o, schema := q.schema }
    let p ← (t.infer maxRounds q.body).mapError (·.fault)
    let infos ← roles.order.mapM (t.describe roles p.types)
    return ⟨infos.filterMap id⟩

end OntoQuery
