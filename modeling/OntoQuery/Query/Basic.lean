import OntoQuery.Query.Visit

/-!
# Queries

What a caller hands to the compiler: a template of statements to construct, a body of patterns to
match, an order and a page.
-/

namespace OntoQuery

/-- One key of the order of results. -/
structure OrderCriterion where
  key : Variable
  ascending : Bool := true
  deriving DecidableEq, Repr

/-- A query as the caller wrote it. -/
structure Query where
  /-- The schema that the caller writes in. -/
  schema : Schema
  /-- The statements to construct. -/
  template : List Statement
  /-- The patterns to match. -/
  body : Group
  orderBy : List OrderCriterion := []
  /-- The number of the page, from zero. -/
  page : UInt32 := 0
  deriving Repr

end OntoQuery
