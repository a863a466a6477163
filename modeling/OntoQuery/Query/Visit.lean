import OntoQuery.Query.Pattern

/-!
# The parts of a pattern in order

`Group.visits` lists everything in a group of patterns, at any depth: each part before its own
parts, and the parts from left to right. What the compiler asks of a whole body, such as its
statements or the first fault in it, is asked of this list.
-/

namespace OntoQuery

/-- A part of a pattern. -/
inductive Visit where
  | group (g : Group)
  | pattern (p : Pattern)
  | statement (s : Statement)
  | optional (g : Group)
  | union (alternatives : List Group)
  | filter (condition : Expression)
  | minus (g : Group)
  | expression (e : Expression)
  | entity (e : Entity)
  deriving Repr

namespace Visit

def display : Visit → String
  | group g => "patterns " ++ toString g.length
  | pattern _ => "pattern"
  | statement _ => "statement"
  | optional _ => "optional"
  | union _ => "union"
  | filter _ => "filter"
  | minus _ => "minus"
  | expression e => "expression " ++ e.display
  | entity e => "entity " ++ e.display

def statement? : Visit → Option Statement
  | statement s => some s
  | _ => none

def entity? : Visit → Option Entity
  | entity e => some e
  | _ => none

end Visit

mutual

def Expression.visits : Expression → List Visit
  | .entity e => [.expression (.entity e), .entity e]
  | .compare left op right =>
    .expression (.compare left op right) :: (left.visits ++ right.visits)
  | .and left right => .expression (.and left right) :: (left.visits ++ right.visits)
  | .or left right => .expression (.or left right) :: (left.visits ++ right.visits)
  | .not inner => .expression (.not inner) :: inner.visits
  | .call function args => .expression (.call function args) :: Expression.argumentVisits args

def Expression.argumentVisits : List Expression → List Visit
  | [] => []
  | e :: es => e.visits ++ Expression.argumentVisits es

end

mutual

def Pattern.visits : Pattern → List Visit
  | .statement s => .pattern (.statement s) :: .statement s :: s.entities.map .entity
  | .optional g => .pattern (.optional g) :: .optional g :: .group g :: Pattern.partVisits g
  | .union gs => .pattern (.union gs) :: .union gs :: Pattern.groupVisits gs
  | .filter e => .pattern (.filter e) :: .filter e :: e.visits
  | .minus g => .pattern (.minus g) :: .minus g :: .group g :: Pattern.partVisits g

def Pattern.partVisits : Group → List Visit
  | [] => []
  | p :: ps => p.visits ++ Pattern.partVisits ps

def Pattern.groupVisits : List Group → List Visit
  | [] => []
  | g :: gs => .group g :: (Pattern.partVisits g ++ Pattern.groupVisits gs)

end

namespace Group

/-- Everything in a group, the group itself first. -/
def visits (g : Group) : List Visit :=
  .group g :: Pattern.partVisits g

/-- The statements of a group, at any depth. -/
def statements (g : Group) : List Statement :=
  (visits g).filterMap Visit.statement?

/-- Whether some statement of the group, at any depth, has the variable in it. -/
def mentions (g : Group) (v : Variable) : Bool :=
  (statements g).any (·.mentions v)

end Group

end OntoQuery
