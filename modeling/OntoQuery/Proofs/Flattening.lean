import Mathlib.Data.List.Basic
import OntoQuery.Proofs.Group
import OntoQuery.Storage.Flattening

/-!
# What flattening leaves alone

Flattening replaces IRIs by their stored form and nothing else: groups stay where they are
(`Group.flatten_structural`), each statement is flattened in its place (`Group.statements_flatten`),
and the variables are the same ones (`Statement.joins_flatten`).
-/

namespace OntoQuery

theorem Entity.flatten_eq_var {e : Entity} {v : Variable} : e.flatten = .var v ↔ e = .var v := by
  cases e with
  | iri ref => simp [Entity.flatten, Entity.ofIri]
  | var u => simp [Entity.flatten]
  | lit l => simp [Entity.flatten]

theorem Statement.joins_flatten {s : Statement} {v : Variable} : s.flatten.Joins v ↔ s.Joins v :=
  or_congr Entity.flatten_eq_var Entity.flatten_eq_var

namespace Group

theorem flatten_cons (p : Pattern) (ps : Group) :
    flatten (p :: ps) = p.map Entity.flatten :: flatten ps := rfl

theorem flatten_alternatives (gs : List Group) :
    Pattern.mapGroups Entity.flatten gs = gs.map flatten :=
  Pattern.mapGroups_eq_map Entity.flatten gs

theorem flatten_structural : Structural flatten where
  append g g' := by
    induction g with
    | nil => rfl
    | cons p ps ih => rw [List.cons_append, flatten_cons, flatten_cons, ih, List.cons_append]
  opens p g hp := by
    cases hp with
    | optional g => exact ⟨_, rfl, .optional _⟩
    | minus g => exact ⟨_, rfl, .minus _⟩
    | @union gs g hg =>
      refine ⟨_, rfl, .union ?_⟩
      rw [flatten_alternatives]
      exact List.mem_map.2 ⟨g, hg, rfl⟩

theorem statements_flatten (g : Group) :
    g.flatten.statements = g.statements.map Statement.flatten := by
  induction g using Group.by_patterns with
  | nil => rfl
  | statement s ps ih =>
    rw [flatten_cons, Pattern.map, statements_statement, statements_statement, ih, List.map_cons]
    rfl
  | optional g ps ihg ih =>
    have hg : Pattern.maps Entity.flatten g = g.flatten := rfl
    rw [flatten_cons, Pattern.map, hg, statements_optional, statements_optional, ihg, ih,
      List.map_append]
  | union gs ps ihg ih =>
    have hgs : (gs.map flatten).flatMap statements =
        (gs.flatMap statements).map Statement.flatten := by
      rw [List.flatMap_map, List.map_flatMap]
      exact List.flatMap_congr ihg
    rw [flatten_cons, Pattern.map, flatten_alternatives, statements_union, statements_union, hgs,
      ih, List.map_append]
  | filter e ps ih => rw [flatten_cons, Pattern.map, statements_filter, statements_filter, ih]
  | minus g ps ihg ih =>
    have hg : Pattern.maps Entity.flatten g = g.flatten := rfl
    rw [flatten_cons, Pattern.map, hg, statements_minus, statements_minus, ihg, ih,
      List.map_append]

theorem mem_statements_flatten {g : Group} {s : Statement} (hs : s ∈ g.statements) :
    s.flatten ∈ g.flatten.statements := by
  rw [statements_flatten]
  exact List.mem_map.2 ⟨s, hs, rfl⟩

end Group

end OntoQuery
