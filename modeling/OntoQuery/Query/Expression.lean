import OntoQuery.Query.Entity

/-!
# Filter expressions

Comparisons, connectives and calls over entities, and how a query writes them.
-/

namespace OntoQuery

inductive Comparison where
  | eq
  | ne
  | lt
  | le
  | gt
  | ge
  deriving DecidableEq, Repr

def Comparison.symbol : Comparison → String
  | eq => "="
  | ne => "!="
  | lt => "<"
  | le => "<="
  | gt => ">"
  | ge => ">="

def Comparison.all : List Comparison :=
  [eq, ne, lt, le, gt, ge]

inductive Function where
  | regex
  | lang
  | langMatches
  | str
  | bound
  deriving DecidableEq, Repr

def Function.name : Function → String
  | regex => "regex"
  | lang => "lang"
  | langMatches => "langMatches"
  | str => "str"
  | bound => "BOUND"

def Function.all : List Function :=
  [regex, lang, langMatches, str, bound]

/-- A condition on the solutions of a group, or an operand of one. -/
inductive Expression where
  | entity (e : Entity)
  | compare (left : Expression) (op : Comparison) (right : Expression)
  | and (left right : Expression)
  | or (left right : Expression)
  | not (inner : Expression)
  | call (function : Function) (args : List Expression)
  deriving BEq, Repr

namespace Expression

/-- Whether a variable has a value. -/
def bound (v : Variable) : Expression :=
  call .bound [entity (.var v)]

mutual

def display : Expression → String
  | entity e => e.display
  | compare left op right => left.display ++ " " ++ op.symbol ++ " " ++ right.display
  | and left right => "(" ++ left.display ++ " && " ++ right.display ++ ")"
  | or left right => "(" ++ left.display ++ " || " ++ right.display ++ ")"
  | not inner => "!" ++ inner.display
  | call function args => function.name ++ "(" ++ ", ".intercalate (displays args) ++ ")"

def displays : List Expression → List String
  | [] => []
  | e :: es => e.display :: displays es

end

mutual

/-- The expression with every entity replaced. -/
def map (f : Entity → Entity) : Expression → Expression
  | entity e => entity (f e)
  | compare left op right => compare (left.map f) op (right.map f)
  | and left right => and (left.map f) (right.map f)
  | or left right => or (left.map f) (right.map f)
  | not inner => not (inner.map f)
  | call function args => call function (maps f args)

def maps (f : Entity → Entity) : List Expression → List Expression
  | [] => []
  | e :: es => e.map f :: maps f es

end

end Expression

end OntoQuery
