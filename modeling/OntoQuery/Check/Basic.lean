import OntoQuery.Check.Predicate
import OntoQuery.Fault
import OntoQuery.Regex.Parser
import OntoQuery.Typing.Types

/-!
# Checking queries

A query is checked in its own schema, before anything is expanded. `Statement.check` tests one
statement by rules in a fixed order, more strictly in the template than in the body; each rule is a
list of tests, and the first that fails is the fault. `Query.checkWith` goes through the body in
order, then through the regular expressions of its filters, then through the template. What reads
the regular expressions is given to it; `Query.check` reads them with `Regex.parse`.
-/

namespace OntoQuery

/-- Whether the name is kept for variables that the compiler makes. -/
def Variable.isReserved (v : Variable) : Bool :=
  Text.hasWord v.name Variable.separator

def Variable.check (v : Variable) : Except Fault Unit :=
  if v.isReserved then .error (.reservedName v) else .ok ()

/-- Checks a variable; other entities have no name. -/
def Entity.checkName : Entity → Except Fault Unit
  | .var v => v.check
  | _ => .ok ()

namespace Statement

/-- An IRI with a schema has the schema of the query. -/
def checkSchema (s : Statement) (schema : Schema) : Entity → Except Fault Unit
  | .iri ref =>
    match ref.schema with
    | some tag => if tag = schema then .ok () else .error (.foreignSchema s ref tag schema)
    | none => .ok ()
  | _ => .ok ()

/-- No core vocabulary stands in the template, except `rdf:type` as a predicate. -/
def checkCore (s : Statement) (asPredicate : Bool) : Entity → Except Fault Unit
  | .iri ref =>
    if ref.iri.isCore && !(asPredicate && ref.iri == Rdf.type) then .error (.coreInTemplate s ref)
    else .ok ()
  | _ => .ok ()

/-- A variable of the template is a resource or a value. -/
def checkNode (s : Statement) (types : Types) : Entity → Except Fault Unit
  | .var v =>
    match types.get? (.var v) with
    | none => .error (.untypedInTemplate v)
    | some info =>
      if info.isResource || info.isValueNode then .ok ()
      else .error (.plainInTemplate s v info.type)
  | _ => .ok ()

/-- The only literal of the template is the one that marks the main resource. -/
def checkLiteral (s : Statement) (asObject : Bool) : Entity → Except Fault Unit
  | .lit l =>
    if asObject && l.isTrue && s.hasMainPredicate then .ok () else .error (.literalInTemplate s l)
  | _ => .ok ()

/-- The rules that hold in the template only. -/
def checkTemplate (s : Statement) (schema : Schema) (types : Types) : Except Fault Unit := do
  s.checkCore false s.subject
  s.checkCore true s.predicate
  s.checkCore false s.object
  if schema = .complex then
    s.checkNode types s.subject
    s.checkNode types s.object
  s.checkLiteral false s.subject
  s.checkLiteral false s.predicate
  s.checkLiteral true s.object

/-- A predicate is not computed, and one of the body is a known property or `rdf:type`. -/
def checkPredicate (s : Statement) (types : Types) (clause : Clause) : Except Fault Unit :=
  match s.predicate with
  | .iri ref =>
    if ref.iri.isForbiddenIn clause then .error (.computedPredicate s ref)
    else if clause = .body ∧ ref.iri ≠ Rdf.type ∧ !types.isProperty s.predicate then
      .error (.untypedPredicate ref)
    else .ok ()
  | _ => .ok ()

/-- Tests one statement of a clause. -/
def check (s : Statement) (schema : Schema) (types : Types) (clause : Clause) :
    Except Fault Unit := do
  s.entities.forM Entity.checkName
  s.entities.forM (s.checkSchema schema)
  if clause = .template then s.checkTemplate schema types
  s.checkPredicate types clause

end Statement

/-- Tests a regular expression by reading it. -/
def Regex.check {α : Type} (read : String → Except Refusal α) (pattern : String) :
    Except Fault Unit :=
  match read pattern with
  | .ok _ => .ok ()
  | .error cause => .error (.badRegex pattern cause)

namespace Visit

/-- Tests a part of a body: each statement as a whole, and the names of variables in filters. -/
def check (schema : Schema) (types : Types) : Visit → Except Fault Unit
  | statement s => s.check schema types .body
  | entity e => e.checkName
  | _ => .ok ()

/-- Tests the expression in a call of `regex`, if it is given as a literal. -/
def checkRegex {α : Type} (read : String → Except Regex.Refusal α) : Visit → Except Fault Unit
  | expression (.call .regex (_ :: .entity (.lit l) :: _)) => Regex.check read l.value
  | _ => .ok ()

end Visit

/-- Tests a query whose entities have these types, where `read` reads regular expressions. -/
def Query.checkWith {α : Type} (read : String → Except Regex.Refusal α) (q : Query)
    (types : Types) : Except Fault Unit := do
  let parts := Group.visits q.body
  parts.forM (Visit.check q.schema types)
  parts.forM (Visit.checkRegex read)
  q.template.forM (·.check q.schema types .template)

/-- Tests a query whose entities have these types. -/
def Query.check (q : Query) (types : Types) : Except Fault Unit :=
  q.checkWith Regex.parse types

end OntoQuery
