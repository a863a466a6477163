import OntoQuery.Check.Basic
import OntoQuery.Json.Basic
import OntoQuery.Sparql.Text
import OntoQuery.Typing.Inference

/-!
# The compiler

A query is typed, checked, turned into queries to the store and written out; the first fault ends
the compilation. A `Config` says for which store, how long to infer types, and how many results make
a page.
-/

namespace OntoQuery

/-- The settings of a compiler. -/
structure Config where
  dialect : Dialect := .graphDb
  maxInferenceRounds : UInt32 := 32
  pageSize : UInt32 := defaultPageSize
  deriving DecidableEq, Repr

/-- A store by its name; also as a variant without content. -/
def Dialect.ofJson? : Json → Option Dialect
  | .str (some "graphdb") | .obj [(some "graphdb", .null)] => some .graphDb
  | .str (some "fuseki") | .obj [(some "fuseki", .null)] => some .fuseki
  | _ => none

/-- The settings that a JSON value gives; those that are missing have their defaults. -/
def Config.ofJson? (j : Json) : Option Config := do
  match ← j.record? ["dialect", "maxInferenceRounds", "pageSize"] 0 with
  | [dialect, rounds, size] =>
    let default : Config := {}
    return {
      dialect := ← Json.fieldOr default.dialect Dialect.ofJson? dialect
      maxInferenceRounds := ← Json.fieldOr default.maxInferenceRounds Json.word? rounds
      pageSize := ← Json.fieldOr default.pageSize Json.word? size }
  | _ => none

/-- The texts of the queries to a store that answer the query. -/
def Query.compile (q : Query) (config : Config) (o : Ontology) : Except Fault CompiledQuery := do
  let types ← q.inferTypes o config.maxInferenceRounds.toNat
  q.check types
  let stored ← q.toStore o types config.dialect config.pageSize
  stored.emit

end OntoQuery
