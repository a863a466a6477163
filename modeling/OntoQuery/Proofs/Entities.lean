import OntoQuery.Proofs.Group

/-!
# The entities of a body

The entities that can have a type, in a statement, in an expression and in a group at any depth,
with what they are for each pattern. The variables of a group are among them.
-/

namespace OntoQuery

theorem Typeable.ofEntity?_eq_var {e : Entity} {v : Variable} :
    Typeable.ofEntity? e = some (.var v) ↔ e = .var v := by
  cases e with
  | iri ref => simp [Typeable.ofEntity?]
  | var u => simp [Typeable.ofEntity?]
  | lit l => simp [Typeable.ofEntity?]

/-- The entities of a statement that can have a type. -/
def Statement.typeables (s : Statement) : List Typeable :=
  s.entities.filterMap Typeable.ofEntity?

theorem Statement.mentions_iff {s : Statement} {v : Variable} :
    s.mentions v = true ↔ .var v ∈ s.typeables := by
  simp [mentions, typeables, List.mem_filterMap, Typeable.ofEntity?_eq_var]

/-- The entities of an expression that can have a type. -/
def Expression.typeables (e : Expression) : List Typeable :=
  (e.visits.filterMap Visit.entity?).filterMap Typeable.ofEntity?

namespace Expression

@[simp] theorem typeables_entity (e : Entity) :
    (entity e).typeables = (Typeable.ofEntity? e).toList := by
  cases h : Typeable.ofEntity? e <;> simp [typeables, visits, Visit.entity?, List.filterMap_cons, h]

@[simp] theorem typeables_compare (left right : Expression) (op : Comparison) :
    (compare left op right).typeables = left.typeables ++ right.typeables := by
  simp [typeables, visits, Visit.entity?, List.filterMap_cons]

@[simp] theorem typeables_and (left right : Expression) :
    (and left right).typeables = left.typeables ++ right.typeables := by
  simp [typeables, visits, Visit.entity?, List.filterMap_cons]

@[simp] theorem typeables_or (left right : Expression) :
    (or left right).typeables = left.typeables ++ right.typeables := by
  simp [typeables, visits, Visit.entity?, List.filterMap_cons]

theorem typeables_call (function : Function) (args : List Expression) :
    (call function args).typeables = args.flatMap typeables := by
  have parts : ((argumentVisits args).filterMap Visit.entity?).filterMap Typeable.ofEntity? =
      args.flatMap typeables := by
    induction args with
    | nil => rfl
    | cons e es ih => simp [argumentVisits, ih, typeables]
  simpa [typeables, visits, Visit.entity?, List.filterMap_cons] using parts

theorem typeables_argument (function : Function) (e : Expression) (es : List Expression) :
    e.typeables ⊆ (call function (e :: es)).typeables := by
  simp [typeables_call]

end Expression

/-- The entities of a body that can have a type, in statements and filters at any depth. -/
def Group.typeables (g : Group) : List Typeable :=
  (g.visits.filterMap Visit.entity?).filterMap Typeable.ofEntity?

namespace Group

@[simp] theorem typeables_statement (s : Statement) (ps : Group) :
    typeables (.statement s :: ps) = s.typeables ++ typeables ps := by
  have hentities : (s.entities.map Visit.entity).filterMap Visit.entity? = s.entities := by
    rw [List.filterMap_map]
    exact List.filterMap_some
  simp [typeables, visits, Pattern.partVisits, Pattern.visits, Statement.typeables, Visit.entity?,
    List.filterMap_cons, hentities]

@[simp] theorem typeables_filter (e : Expression) (ps : Group) :
    typeables (.filter e :: ps) = e.typeables ++ typeables ps := by
  simp [typeables, visits, Pattern.partVisits, Pattern.visits, Expression.typeables, Visit.entity?,
    List.filterMap_cons]

@[simp] theorem typeables_optional (g ps : Group) :
    typeables (.optional g :: ps) = typeables g ++ typeables ps := by
  simp [typeables, visits, Pattern.partVisits, Pattern.visits, Visit.entity?, List.filterMap_cons]

@[simp] theorem typeables_minus (g ps : Group) :
    typeables (.minus g :: ps) = typeables g ++ typeables ps := by
  simp [typeables, visits, Pattern.partVisits, Pattern.visits, Visit.entity?, List.filterMap_cons]

@[simp] theorem typeables_union (gs : List Group) (ps : Group) :
    typeables (.union gs :: ps) = gs.flatMap typeables ++ typeables ps := by
  have parts : ((Pattern.groupVisits gs).filterMap Visit.entity?).filterMap Typeable.ofEntity? =
      gs.flatMap typeables := by
    induction gs with
    | nil => rfl
    | cons g gs ih =>
      simp [Pattern.groupVisits, Visit.entity?, List.filterMap_cons, ih, typeables, visits]
  simpa [typeables, visits, Pattern.partVisits, Pattern.visits, Visit.entity?, List.filterMap_cons]
    using parts

theorem typeables_of_filter {g : Group} {e : Expression} (h : .filter e ∈ g) {entity : Typeable}
    (he : entity ∈ e.typeables) : entity ∈ g.typeables := by
  induction g with
  | nil => cases h
  | cons p ps ih =>
    rcases List.mem_cons.1 h with rfl | hps
    · rw [typeables_filter]
      exact List.mem_append_left _ he
    · cases p with
      | statement s => exact typeables_statement s ps ▸ List.mem_append_right _ (ih hps)
      | optional g => exact typeables_optional g ps ▸ List.mem_append_right _ (ih hps)
      | union gs => exact typeables_union gs ps ▸ List.mem_append_right _ (ih hps)
      | filter e' => exact typeables_filter e' ps ▸ List.mem_append_right _ (ih hps)
      | minus g => exact typeables_minus g ps ▸ List.mem_append_right _ (ih hps)

/-- The variables of a group, in statements and filters at any depth. -/
def vars (g : Group) : List Variable :=
  (g.visits.filterMap Visit.entity?).filterMap Entity.var?

theorem mem_vars {g : Group} {v : Variable} : v ∈ g.vars ↔ .var v ∈ g.typeables := by
  simp only [vars, typeables, List.mem_filterMap, Entity.var?_eq_some, Typeable.ofEntity?_eq_var]

end Group

end OntoQuery
