import OntoQuery.Query.Expression

/-!
# Graph patterns

Statements, and groups of patterns under OPTIONAL, UNION, FILTER and MINUS. A `Group` is a list of
patterns that hold together.
-/

namespace OntoQuery

/-- A statement: subject, predicate and object. -/
structure Statement where
  subject : Entity
  predicate : Entity
  object : Entity
  deriving DecidableEq, Repr

namespace Statement

def entities (s : Statement) : List Entity :=
  [s.subject, s.predicate, s.object]

/-- Whether the predicate is `rdf:type`. -/
def isType (s : Statement) : Bool :=
  s.predicate.isRdfType

/-- Whether the predicate says which resource is the main one. -/
def hasMainPredicate (s : Statement) : Bool :=
  match s.predicate with
  | .iri ref => ref.iri.toInternal == Base.isMainResource
  | _ => false

def map (f : Entity → Entity) (s : Statement) : Statement :=
  ⟨f s.subject, f s.predicate, f s.object⟩

def mentions (s : Statement) (v : Variable) : Bool :=
  s.entities.contains (.var v)

def display (s : Statement) : String :=
  s.subject.display ++ " " ++ s.predicate.display ++ " " ++ s.object.display ++ " ."

end Statement

/-- A pattern over a graph. -/
inductive Pattern where
  | statement (s : Statement)
  | optional (group : List Pattern)
  | union (alternatives : List (List Pattern))
  | filter (condition : Expression)
  | minus (group : List Pattern)
  deriving BEq, Repr

/-- Patterns that hold together. -/
abbrev Group := List Pattern

namespace Pattern

/-- The statement of three entities. -/
def triple (subject predicate object : Entity) : Pattern :=
  statement ⟨subject, predicate, object⟩

def statement? : Pattern → Option Statement
  | statement s => some s
  | _ => none

mutual

def display : Pattern → String
  | statement s => s.display
  | optional group => "OPTIONAL \x7b " ++ " ".intercalate (displays group) ++ " \x7d"
  | union alternatives => " UNION ".intercalate (displayGroups alternatives)
  | filter condition => "FILTER(" ++ condition.display ++ ")"
  | minus group => "MINUS \x7b " ++ " ".intercalate (displays group) ++ " \x7d"

def displays : Group → List String
  | [] => []
  | p :: ps => p.display :: displays ps

def displayGroups : List Group → List String
  | [] => []
  | g :: gs => ("\x7b " ++ " ".intercalate (displays g) ++ " \x7d") :: displayGroups gs

end

mutual

/-- The pattern with every entity replaced. -/
def map (f : Entity → Entity) : Pattern → Pattern
  | statement s => statement (s.map f)
  | optional group => optional (maps f group)
  | union alternatives => union (mapGroups f alternatives)
  | filter condition => filter (condition.map f)
  | minus group => minus (maps f group)

def maps (f : Entity → Entity) : Group → Group
  | [] => []
  | p :: ps => p.map f :: maps f ps

def mapGroups (f : Entity → Entity) : List Group → List Group
  | [] => []
  | g :: gs => maps f g :: mapGroups f gs

end

end Pattern

end OntoQuery
