import OntoQuery.Query.Visit

/-!
# Expressions by their operands

However an operator is written, the expressions right inside are its operands, from left to right.
`Expression.by_operands` is the induction over them: what holds of an expression whenever it holds
of its operands holds of every expression. `Expression.Has` leads to what stands in an expression at
any depth.
-/

namespace OntoQuery.Expression

/-- The expressions right inside, from left to right. -/
def operands : Expression → List Expression
  | entity _ => []
  | compare left _ right => [left, right]
  | and left right => [left, right]
  | or left right => [left, right]
  | not inner => [inner]
  | call _ args => args

/-- The entity that the expression is. -/
def entity? : Expression → Option Entity
  | entity e => some e
  | _ => none

theorem entity?_eq_some {e : Expression} {term : Entity} : e.entity? = some term ↔
    e = entity term := by
  cases e <;> simp [entity?]

mutual

theorem by_operands_aux {P : Expression → Prop} (step : ∀ e, (∀ x ∈ operands e, P x) → P e) :
    ∀ e : Expression, P e
  | entity e => step (entity e) (by simp [operands])
  | compare left op right => by
    have hleft := by_operands_aux step left
    have hright := by_operands_aux step right
    exact step (compare left op right) (by simp [operands, hleft, hright])
  | and left right => by
    have hleft := by_operands_aux step left
    have hright := by_operands_aux step right
    exact step (and left right) (by simp [operands, hleft, hright])
  | or left right => by
    have hleft := by_operands_aux step left
    have hright := by_operands_aux step right
    exact step (or left right) (by simp [operands, hleft, hright])
  | not inner => by
    have hinner := by_operands_aux step inner
    exact step (not inner) (by simp [operands, hinner])
  | call function args => step (call function args) (all_by_operands_aux step args)

theorem all_by_operands_aux {P : Expression → Prop} (step : ∀ e, (∀ x ∈ operands e, P x) → P e) :
    ∀ es : List Expression, ∀ e ∈ es, P e
  | [], _, h => by cases h
  | e :: es, _, h => by
    cases h with
    | head => exact by_operands_aux step e
    | tail _ h => exact all_by_operands_aux step es _ h

end

/-- Induction on expressions: what holds of an expression whenever it holds of its operands holds of
every expression. -/
@[elab_as_elim] theorem by_operands {P : Expression → Prop} (e : Expression)
    (step : ∀ e, (∀ x ∈ operands e, P x) → P e) : P e :=
  by_operands_aux step e

/-- The second expression is the first one or stands in it, at any depth. -/
inductive Has : Expression → Expression → Prop where
  | self (e : Expression) : Has e e
  | operand {e x part : Expression} : x ∈ e.operands → Has x part → Has e part

/-! ## What is visited -/

theorem argumentVisits_eq (es : List Expression) : argumentVisits es = es.flatMap visits := by
  induction es with
  | nil => rfl
  | cons e es ih => simp [argumentVisits, ih]

/-- An expression is visited before its operands. -/
theorem visits_eq (e : Expression) : e.visits =
    .expression e :: (e.entity?.toList.map .entity ++ e.operands.flatMap visits) := by
  cases e with
  | call function args => simp [visits, entity?, operands, argumentVisits_eq]
  | _ => simp [visits, entity?, operands]

theorem visit_no_statement (e : Expression) : ∀ v ∈ e.visits, v.statement? = none := by
  induction e using by_operands with
  | step e ih =>
    intro v hv
    rw [visits_eq] at hv
    simp only [List.mem_cons, List.mem_append, List.mem_map, List.mem_flatMap] at hv
    rcases hv with rfl | ⟨entity, _, rfl⟩ | ⟨x, hx, hv⟩
    · rfl
    · rfl
    · exact ih x hx v hv

/-! ## Replacing entities -/

theorem maps_eq_map (f : Entity → Entity) (es : List Expression) :
    maps f es = es.map (·.map f) := by
  induction es with
  | nil => rfl
  | cons e es ih => rw [maps, ih, List.map_cons]

theorem operands_map (f : Entity → Entity) (e : Expression) :
    (e.map f).operands = e.operands.map (·.map f) := by
  cases e with
  | call function args => simp [map, operands, maps_eq_map]
  | _ => simp [map, operands]

/-- What stands in an expression with its entities replaced has replaced what stood there. -/
theorem Has.exists_of_map {f : Entity → Entity} {e part : Expression} (h : (e.map f).Has part) :
    ∃ origin, e.Has origin ∧ origin.map f = part := by
  induction e using by_operands with
  | step e ih =>
    cases h with
    | self => exact ⟨e, .self e, rfl⟩
    | operand hx hpart =>
      rw [operands_map, List.mem_map] at hx
      obtain ⟨x, hx, rfl⟩ := hx
      obtain ⟨origin, horigin, hmap⟩ := ih x hx hpart
      exact ⟨origin, .operand hx horigin, hmap⟩

end OntoQuery.Expression
