import OntoQuery.Query.Pattern

/-!
# Scopes

The facts of a body that hold of the same solutions. What stands under OPTIONAL or MINUS belongs to
the scope around it; each alternative of a UNION is a scope of its own.
-/

namespace OntoQuery

/-- The statements and filters that hold together, and the unions among them. -/
inductive Scope where
  | mk (statements : List Statement) (filters : List Expression) (unions : List (List Scope))
  deriving Repr

namespace Scope

def statements : Scope → List Statement
  | mk statements _ _ => statements

def filters : Scope → List Expression
  | mk _ filters _ => filters

def unions : Scope → List (List Scope)
  | mk _ _ unions => unions

def empty : Scope :=
  mk [] [] []

/-- Two scopes as one. -/
def append : Scope → Scope → Scope
  | mk s f u, mk s' f' u' => mk (s ++ s') (f ++ f') (u ++ u')

instance : Append Scope where
  append := append

mutual

def ofPattern : Pattern → Scope
  | .statement s => mk [s] [] []
  | .filter e => mk [] [e] []
  | .optional g => ofGroup g
  | .minus g => ofGroup g
  | .union gs => mk [] [] [ofGroups gs]

/-- The scope of a group of patterns. -/
def ofGroup : Group → Scope
  | [] => empty
  | p :: ps => ofPattern p ++ ofGroup ps

def ofGroups : List Group → List Scope
  | [] => []
  | g :: gs => ofGroup g :: ofGroups gs

end

end Scope

end OntoQuery
