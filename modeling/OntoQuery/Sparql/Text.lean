import OntoQuery.Sparql.Term
import OntoQuery.Storage.Query

/-!
# SPARQL queries

The text of the queries to a store: declarations of abbreviations, then the query, one statement on
a line and four blanks for each level of nesting. Lines are made first and joined last.
-/

namespace OntoQuery.Sparql

/-- A line at some level of nesting. -/
def line (depth : Nat) (text : String) : String :=
  String.join (List.replicate depth "    ") ++ text

/-- The lines as one text, each ended by a line break. -/
def joinLines (lines : List String) : String :=
  String.join (lines.map (· ++ "\n"))

/-- The declarations of abbreviations and a blank line. -/
def header : List String :=
  abbreviations.map (fun (short, vocabulary) => "PREFIX " ++ short ++ ": <" ++ vocabulary ++ ">")
    ++ [""]

/-- Lines between braces, with the words before the opening one. -/
def block (depth : Nat) (head : String) (inside : List String) : List String :=
  line depth (head ++ "\x7b") :: inside ++ [line depth "\x7d"]

def statementLine (depth : Nat) (s : Statement) : Except Fault String := do
  return line depth
    ((← term s.subject) ++ " " ++ (← term s.predicate) ++ " " ++ (← term s.object) ++ " .")

mutual

def patternLines (depth : Nat) : Pattern → Except Fault (List String)
  | .statement s => do return [← statementLine depth s]
  | .optional g => do return block depth "OPTIONAL " (← groupLines (depth + 1) g)
  | .union gs => alternativeLines depth gs
  | .filter e => do return [line depth ("FILTER(" ++ (← expression e) ++ ")")]
  | .minus g => do return block depth "MINUS " (← groupLines (depth + 1) g)

/-- The patterns of a group, without braces. -/
def groupLines (depth : Nat) : Group → Except Fault (List String)
  | [] => .ok []
  | p :: ps => do return (← patternLines depth p) ++ (← groupLines depth ps)

/-- Groups between braces, with UNION between them. -/
def alternativeLines (depth : Nat) : List Group → Except Fault (List String)
  | [] => .ok []
  | [g] => do return block depth "" (← groupLines (depth + 1) g)
  | g :: gs => do
    return block depth "" (← groupLines (depth + 1) g)
      ++ line depth "UNION" :: (← alternativeLines depth gs)

end

/-- The text of a group without braces. -/
def groupText (g : Group) : Except Fault String := do
  return joinLines (← groupLines 0 g)

def whereLines (body : Group) : Except Fault (List String) := do
  return block 0 "WHERE " (← groupLines 1 body)

def criterionTerm (c : OrderCriterion) : Except Fault String := do
  return (if c.ascending then "ASC(" else "DESC(") ++ (← variableTerm c.key) ++ ")"

/-- The line of the order, if there is one. -/
def orderLines : List OrderCriterion → Except Fault (List String)
  | [] => .ok []
  | criteria => do return ["ORDER BY " ++ " ".intercalate (← criteria.mapM criterionTerm)]

/-- The text of a query for a page of results. -/
def contentText (q : ContentQuery) : Except Fault String := do
  let template ← q.template.mapM (statementLine 1)
  let body ← whereLines q.body
  let order ← orderLines q.orderBy
  return joinLines (header ++ block 0 "CONSTRUCT " template ++ body ++ order
    ++ ["LIMIT " ++ toString q.limit, "OFFSET " ++ toString q.offset])

/-- The text of a counting query. -/
def countText (q : CountQuery) : Except Fault String := do
  let main ← variableTerm q.mainResource
  let body ← whereLines q.body
  return joinLines (header ++ ["SELECT (COUNT(DISTINCT " ++ main ++ ") AS ?count)"] ++ body)

end OntoQuery.Sparql

namespace OntoQuery

/-- The texts of the two queries to a store. -/
structure CompiledQuery where
  content : String
  count : String
  deriving DecidableEq, Repr

def StoreQuery.emit (q : StoreQuery) : Except Fault CompiledQuery := do
  return { content := ← Sparql.contentText q.content, count := ← Sparql.countText q.count }

end OntoQuery
