import OntoQuery.Schema

/-!
# Predicates that a query must not use

Some predicates are computed for answers and not stored as callers see them. They cannot be queried;
and in the template a value's content is added by the compiler, so its accessors cannot be used
there.
-/

namespace OntoQuery

/-- The two clauses of a query. -/
inductive Clause where
  /-- The patterns to match. -/
  | body
  /-- The statements to construct. -/
  | template
  deriving DecidableEq, Repr

namespace Iri

/-- The predicates that are computed. -/
def computed : List Iri :=
  Rdfs.label ::
  (["valueAsString", "hasPermissions", "userHasPermission", "creationDate", "lastModificationDate",
    "deleteDate", "arkUrl", "versionArkUrl", "valueCreationDate", "valueHasUUID",
    "dateValueHasStartYear", "dateValueHasStartMonth", "dateValueHasStartDay",
    "dateValueHasStartEra", "dateValueHasEndYear", "dateValueHasEndMonth", "dateValueHasEndDay",
    "dateValueHasEndEra", "linkValueHasSourceIri", "linkValueHasTargetIri", "hasIncomingLinkValue",
    "hasStandoffLinkTo", "hasStandoffLinkToValue", "attachedToUser",
    "attachedToProject"].map (Complex.vocabulary ++ ·)
  ++ ["creationDate", "lastModificationDate", "arkUrl", "versionArkUrl",
    "hasStandoffLinkTo"].map (Simple.vocabulary ++ ·))

def isComputed (iri : Iri) : Bool :=
  computed.contains iri

/-- Whether the predicate must not stand in the clause. -/
def isForbiddenIn (clause : Clause) (iri : Iri) : Bool :=
  match clause with
  | .body => iri.isComputed
  | .template => iri.isComputed || iri.isAccessor

end Iri

end OntoQuery
