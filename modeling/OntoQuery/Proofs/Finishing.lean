import OntoQuery.Proofs.Expansion
import OntoQuery.Proofs.Subtypes

/-!
# From an expanded body to a body for the store

After expansion, permissions are added and, for a store that does not reason, subtypes are spelled
out. Both go statement by statement, so what holds of a place in an expanded body carries over to
the same place in the body for the store (`Group.finished_rewriting`).
-/

namespace OntoQuery

namespace Group

theorem withPermissions_eq_flatMap (g : Group) :
    g.withPermissions = g.flatMap Pattern.withPermissions := by
  induction g with
  | nil => rfl
  | cons p ps ih => simp only [withPermissions, List.flatMap_cons, ih]

theorem allWithPermissions_eq_map (gs : List Group) :
    allWithPermissions gs = gs.map withPermissions := by
  induction gs with
  | nil => rfl
  | cons g gs ih => simp only [allWithPermissions, List.map_cons, ih]

/-- Adding permissions goes statement by statement. -/
theorem withPermissions_rewriting :
    Rewriting withPermissions fun s => s.withPermission.map .statement where
  nil := rfl
  statement s ps := by simp only [withPermissions_eq_flatMap, List.flatMap_cons]; rfl
  optional g ps := by
    simp only [withPermissions_eq_flatMap, List.flatMap_cons, Pattern.withPermissions]
    rfl
  union gs ps := by
    simp only [withPermissions, Pattern.withPermissions, allWithPermissions_eq_map]
    rfl
  filter e ps := rfl
  minus g ps := rfl

theorem statements_map (ss : List Statement) : statements (ss.map Pattern.statement) = ss := by
  induction ss with
  | nil => rfl
  | cons s ss ih => rw [List.map_cons, statements_statement, ih]

theorem statements_withPermissions (g : Group) :
    g.withPermissions.statements = g.statements.flatMap Statement.withPermission := by
  rw [withPermissions_rewriting.statements_eq]
  apply List.flatMap_congr
  intro s _
  exact statements_map s.withPermission

theorem mem_withPermissions {g : Group} {s t : Statement} (hs : s ∈ g.statements)
    (ht : t ∈ s.withPermission) : t ∈ g.withPermissions.statements := by
  rw [statements_withPermissions]
  exact List.mem_flatMap.2 ⟨s, hs, ht⟩

/-- An expanded group as the store needs it: with permissions, and spelled out over subtypes if the
store does not reason. -/
def finished (d : Dialect) (o : Ontology) (g : Group) : Group :=
  g.withPermissions.compensate d o

/-- Finishing goes statement by statement, since both of its steps do. -/
theorem finished_rewriting (d : Dialect) (o : Ontology) :
    Rewriting (finished d o) fun s => Group.compensate d o (s.withPermission.map .statement) :=
  withPermissions_rewriting.comp (compensate_rewriting d o)

end Group

end OntoQuery
