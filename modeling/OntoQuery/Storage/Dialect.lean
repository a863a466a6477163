/-!
# Triplestores

The stores that compiled queries run on differ in whether they reason: one that does matches a class
also by its subclasses and a property by its subproperties.
-/

namespace OntoQuery

/-- The triplestore that a query is compiled for. -/
inductive Dialect where
  | graphDb
  | fuseki
  deriving DecidableEq, Repr

namespace Dialect

def name : Dialect → String
  | graphDb => "graphdb"
  | fuseki => "fuseki"

/-- Whether the store reasons over subclasses and subproperties. -/
def reasons : Dialect → Bool
  | graphDb => true
  | fuseki => false

end Dialect

end OntoQuery
