import OntoQuery.Proofs.FlatForm
import OntoQuery.Proofs.Scopes
import OntoQuery.Proofs.Subsumption
import OntoQuery.Storage.Query

/-!
# Queries that say the same

A caller can write one query in several ways: in the complex schema, with internal IRIs, or with
both mixed. Type inference and the way to the store see IRIs by their stored form only, so queries
with the same flattened body and template come to the same (`same_spelling_compiles_same`). The
schema of the query counts for two things only: the simple one shows value classes as datatypes, and
a fault names types in the query's schema, which its kind does not depend on (`Typist.infer_alike`).
-/

namespace OntoQuery

/-! ## Rules see stored forms -/

namespace Typist
variable (t : Typist)

theorem propertyVariable_flatten (v : Variable) (e : Entity) :
    t.propertyVariable v e.flatten = t.propertyVariable v e := by
  cases e with
  | iri ref =>
    funext types
    simp [propertyVariable, Entity.flatten, Entity.ofIri, IriRef.of, Typeable.ofEntity?]
  | var u => rfl
  | lit l => rfl

theorem statement_flatten (s : Statement) : t.statement s.flatten = t.statement s := by
  obtain ⟨subject, predicate, object⟩ := s
  unfold statement
  rw [Statement.isType_flatten]
  simp only [Statement.flatten, Statement.map, Typeable.ofEntity?_flatten, propertyVariable_flatten]
  cases object with
  | iri ref => simp only [Entity.flatten, Entity.ofIri, IriRef.of, Iri.toInternal_toInternal]
  | var v => rfl
  | lit l => rfl

theorem subjectClass_flatten (s : Statement) : t.subjectClass s.flatten = t.subjectClass s := by
  obtain ⟨subject, predicate, object⟩ := s
  funext types
  cases predicate with
  | var v =>
    simp only [subjectClass, Statement.flatten, Statement.map, Typeable.ofEntity?_flatten]
    rfl
  | iri ref => simp [subjectClass, Statement.flatten, Statement.map, Entity.flatten, Entity.ofIri]
  | lit l => simp [subjectClass, Statement.flatten, Statement.map, Entity.flatten]

theorem textArgument?_flatten :
    ∀ e : Expression, textArgument? (e.map Entity.flatten) = textArgument? e
  | .entity (.var _) | .entity (.iri _) | .entity (.lit _) => rfl
  | .compare _ _ _ | .and _ _ | .or _ _ | .not _ => rfl
  | .call .str [] => rfl
  | .call .str (e :: _) => textArgument?_flatten e
  | .call .regex _ | .call .lang _ | .call .langMatches _ | .call .bound _ => rfl

theorem comparison_flatten (op : Comparison) (a b : Entity) :
    t.comparison op a.flatten b.flatten = t.comparison op a b := by
  cases a <;> cases b <;> simp [comparison, Entity.flatten, Entity.ofIri, IriRef.of]

theorem filter_flatten : ∀ e : Expression, t.filter (e.map Entity.flatten) = t.filter e
  | .entity _ => rfl
  | .compare left op right => by
    cases left with
    | entity a =>
      cases right with
      | entity b => exact t.comparison_flatten op a b
      | _ => rfl
    | _ => rfl
  | .and left right => by
    simp only [Expression.map, filter, filter_flatten left, filter_flatten right]
  | .or left right => by
    simp only [Expression.map, filter, filter_flatten left, filter_flatten right]
  | .not inner => by simp only [Expression.map, filter, filter_flatten inner]
  | .call .regex [] | .call .lang [] | .call .langMatches [] => rfl
  | .call .regex (e :: _) | .call .lang (e :: _) => by
    simp only [Expression.map, Expression.maps, filter, textArgument?_flatten]
  | .call .langMatches (e :: _) => by
    simp only [Expression.map, Expression.maps, filter, filter_flatten e]
  | .call .str _ | .call .bound _ => rfl

theorem round_flatten (rounds : Nat) (statements : List Statement) (filters : List Expression)
    (unions : Pass) :
    t.round rounds (statements.map Statement.flatten) (filters.map (·.map Entity.flatten)) unions =
      t.round rounds statements filters unions := by
  have hstatements :
      (statements.map Statement.flatten).map t.statement = statements.map t.statement := by
    rw [List.map_map]
    exact List.map_congr_left fun s _ => t.statement_flatten s
  have hfilters : (filters.map (·.map Entity.flatten)).map t.filter = filters.map t.filter := by
    rw [List.map_map]
    exact List.map_congr_left fun e _ => t.filter_flatten e
  have hclasses :
      (statements.map Statement.flatten).map t.subjectClass = statements.map t.subjectClass := by
    rw [List.map_map]
    exact List.map_congr_left fun s _ => t.subjectClass_flatten s
  unfold round
  rw [hstatements, hfilters, hclasses]

end Typist

/-! ## Inference sees stored forms -/

namespace Scope

mutual

/-- The scope with every entity replaced. -/
def map (f : Entity → Entity) : Scope → Scope
  | mk statements filters unions =>
    mk (statements.map (·.map f)) (filters.map (·.map f)) (mapUnions f unions)

def mapUnions (f : Entity → Entity) : List (List Scope) → List (List Scope)
  | [] => []
  | branches :: unions => mapBranches f branches :: mapUnions f unions

def mapBranches (f : Entity → Entity) : List Scope → List Scope
  | [] => []
  | branch :: branches => branch.map f :: mapBranches f branches

end

variable (f : Entity → Entity)

theorem mapBranches_eq (branches : List Scope) :
    mapBranches f branches = branches.map (·.map f) := by
  induction branches with
  | nil => rfl
  | cons branch branches ih => rw [mapBranches, ih, List.map_cons]

theorem mapUnions_eq (unions : List (List Scope)) :
    mapUnions f unions = unions.map (·.map (·.map f)) := by
  induction unions with
  | nil => rfl
  | cons branches unions ih => rw [mapUnions, ih, mapBranches_eq, List.map_cons]

theorem map_mk (statements : List Statement) (filters : List Expression)
    (unions : List (List Scope)) :
    (mk statements filters unions).map f =
      mk (statements.map (·.map f)) (filters.map (·.map f)) (unions.map (·.map (·.map f))) := by
  rw [map, mapUnions_eq]

theorem mk_append (s s' : List Statement) (e e' : List Expression) (u u' : List (List Scope)) :
    mk s e u ++ mk s' e' u' = mk (s ++ s') (e ++ e') (u ++ u') := rfl

theorem map_append (a b : Scope) : (a ++ b).map f = a.map f ++ b.map f := by
  obtain ⟨s, e, u⟩ := a
  obtain ⟨s', e', u'⟩ := b
  simp only [mk_append, map_mk, List.map_append]

theorem ofGroup_flatten (g : Group) : ofGroup g.flatten = (ofGroup g).map Entity.flatten := by
  have inner : ∀ g : Group, Pattern.maps Entity.flatten g = g.flatten := fun _ => rfl
  induction g using Group.by_patterns with
  | nil => rfl
  | statement s ps ih =>
    rw [Group.flatten_cons, ofGroup, ofGroup, map_append, ih]
    rfl
  | optional g ps ihg ih =>
    rw [Group.flatten_cons, ofGroup, ofGroup, map_append, ih, Pattern.map, inner, ofPattern,
      ofPattern, ihg]
  | union gs ps ihg ih =>
    have hgs : ofGroups (gs.map Group.flatten) = (ofGroups gs).map (·.map Entity.flatten) := by
      rw [ofGroups_eq, ofGroups_eq, List.map_map, List.map_map]
      exact List.map_congr_left ihg
    rw [Group.flatten_cons, ofGroup, ofGroup, map_append, ih, Pattern.map,
      Group.flatten_alternatives, ofPattern, ofPattern, hgs, map_mk]
    rfl
  | filter e ps ih =>
    rw [Group.flatten_cons, ofGroup, ofGroup, map_append, ih]
    rfl
  | minus g ps ihg ih =>
    rw [Group.flatten_cons, ofGroup, ofGroup, map_append, ih, Pattern.map, inner, ofPattern,
      ofPattern, ihg]

end Scope

namespace Typist
variable (t : Typist) (rounds : Nat)

theorem inferScope_flatten (scope : Scope) :
    t.inferScope rounds (scope.map Entity.flatten) = t.inferScope rounds scope := by
  induction scope using Scope.by_unions with
  | mk statements filters unions ih =>
    have hunions : (unions.map (·.map (·.map Entity.flatten))).map
        (fun branches => Pass.union t.schema (branches.map (t.inferScope rounds))) =
      unions.map (fun branches => Pass.union t.schema (branches.map (t.inferScope rounds))) := by
      rw [List.map_map]
      refine List.map_congr_left fun branches hbranches => ?_
      simp only [Function.comp_apply, List.map_map]
      congr 1
      exact List.map_congr_left (ih branches hbranches)
    rw [Scope.map_mk, inferScope_mk, inferScope_mk, hunions]
    congr 1
    exact t.round_flatten rounds statements filters _

theorem infer_flatten (body : Group) : t.infer rounds body.flatten = t.infer rounds body := by
  rw [infer, Scope.ofGroup_flatten, inferScope_flatten, infer]

end Typist

theorem Roles.ofStatement_flatten (s : Statement) : ofStatement s.flatten = ofStatement s := by
  rw [ofStatement, Statement.isType_flatten, ofStatement]
  split
  · simp [Statement.flatten, Statement.map, List.filterMap_cons]
  · simp [Statement.flatten, Statement.map, List.filterMap_cons]

theorem Roles.ofGroup_flatten (g : Group) : ofGroup g.flatten = ofGroup g := by
  have hplaces : g.flatten.statements.flatMap ofStatement = g.statements.flatMap ofStatement := by
    rw [Group.statements_flatten, List.flatMap_map]
    exact List.flatMap_congr fun s _ => ofStatement_flatten s
  rw [ofGroup, hplaces, ofGroup]

/-! ## The schema of a fault -/

section
variable {ε κ α β : Type} {kind : ε → κ}

/-- The computations give the same, or fail with errors of one kind. -/
def Alike (kind : ε → κ) (x y : Except ε α) : Prop :=
  x.mapError kind = y.mapError kind

theorem Alike.refl (x : Except ε α) : Alike kind x x :=
  Eq.refl _

theorem Alike.bind {x y : Except ε α} {f g : α → Except ε β} (h : Alike kind x y)
    (hfg : ∀ a, Alike kind (f a) (g a)) : Alike kind (x >>= f) (y >>= g) := by
  cases x with
  | ok a =>
    cases y with
    | ok b =>
      cases h
      exact hfg a
    | error e => cases h
  | error e =>
    cases y with
    | ok b => cases h
    | error e' => exact congrArg Except.error (Except.error.inj h)

theorem Alike.mapError {ε' κ' : Type} {kind' : ε' → κ'} {x y : Except ε α} (h : Alike kind x y)
    {f : ε → ε'} (w : κ → κ') (hw : ∀ e, kind' (f e) = w (kind e)) :
    Alike kind' (x.mapError f) (y.mapError f) := by
  cases x with
  | ok a =>
    cases y with
    | ok b =>
      cases h
      exact .refl _
    | error e => cases h
  | error e =>
    cases y with
    | ok b => cases h
    | error e' =>
      have hkind : kind e = kind e' := Except.error.inj h
      simp [Alike, Except.mapError, hw, hkind]

theorem Alike.foldlM {f g : β → α → Except ε β} (h : ∀ b a, Alike kind (f b a) (g b a))
    (as : List α) (b : β) : Alike kind (as.foldlM f b) (as.foldlM g b) := by
  induction as generalizing b with
  | nil => exact .refl _
  | cons a as ih =>
    rw [List.foldlM_cons, List.foldlM_cons]
    exact (h b a).bind ih

end

def Fault.kind (f : Fault) : FaultKind :=
  f.report.kind

def Halt.kind (h : Halt) : FaultKind × Bool :=
  (h.fault.kind, h.exhausted)

theorem Progress.attempt_alike {α : Type} (p : Progress) {x y : Except Fault α}
    (h : Alike Fault.kind x y) : Alike Halt.kind (p.attempt x) (p.attempt y) :=
  h.mapError (·, p.exhausted) fun _ => rfl

/-- The rules do the same, or fail with faults of one kind. -/
def Rule.Alike (r r' : Rule) : Prop :=
  ∀ types, OntoQuery.Alike Fault.kind (r types) (r' types)

namespace Rule

theorem Alike.andThen {a a' b b' : Rule} (ha : a.Alike a') (hb : b.Alike b') :
    (a.andThen b).Alike (a'.andThen b') :=
  fun types => (ha types).bind fun made => (hb made.1).bind fun _ => .refl _

theorem Alike.all {rs rs' : List Rule} (h : List.Forall₂ Alike rs rs') :
    (Rule.all rs).Alike (Rule.all rs') := by
  induction h with
  | nil => exact fun _ => .refl _
  | cons hr _ ih => exact hr.andThen ih

end Rule

namespace Typist
variable (o : Ontology) (schema schema' : Schema)

theorem assign_alike (e : Typeable) (type : Iri) :
    (assign ⟨o, schema⟩ e type).Alike (assign ⟨o, schema'⟩ e type) := by
  intro types
  unfold assign
  cases types.find? e with
  | none => exact .refl _
  | some current =>
    cases h : o.refine current type with
    | keep => simp only [h]; exact .refl _
    | replace => simp only [h]; exact .refl _
    | conflict => simp only [h]; rfl

theorem assign?_alike (e : Option Typeable) (type : Option Iri) :
    (assign? ⟨o, schema⟩ e type).Alike (assign? ⟨o, schema'⟩ e type) := by
  cases e with
  | none => exact fun _ => .refl _
  | some e =>
    cases type with
    | none => exact fun _ => .refl _
    | some type => exact assign_alike o schema schema' e type

theorem share_alike (a : Typeable) (b : Option Typeable) :
    (share ⟨o, schema⟩ a b).Alike (share ⟨o, schema'⟩ a b) :=
  fun types => assign?_alike o schema schema' b (types.find? a) types

theorem property_alike (p : Iri) (subject object : Option Typeable) :
    (property ⟨o, schema⟩ p subject object).Alike (property ⟨o, schema'⟩ p subject object) := by
  intro types
  unfold property
  dsimp only
  split
  · exact .refl _
  · refine Alike.bind (.refl _) fun objectType => Alike.bind (.refl _) fun subjectType => ?_
    refine Rule.Alike.all ?_ types
    refine .cons (assign?_alike o _ _ _ _) (.cons (assign?_alike o _ _ _ _) ?_)
    exact .cons (assign?_alike o _ _ _ _) .nil

theorem propertyVariable_alike (v : Variable) (object : Entity) :
    (propertyVariable ⟨o, schema⟩ v object).Alike (propertyVariable ⟨o, schema'⟩ v object) := by
  intro types
  unfold propertyVariable
  cases types.find? (.var v) with
  | some type => exact assign?_alike o _ _ _ _ types
  | none =>
    cases object with
    | lit l => exact assign_alike o _ _ _ _ types
    | var u => exact share_alike o _ _ _ _ types
    | iri ref => exact share_alike o _ _ _ _ types

theorem statement_alike (s : Statement) :
    (statement ⟨o, schema⟩ s).Alike (statement ⟨o, schema'⟩ s) := by
  unfold statement
  dsimp only
  split
  · cases s.object with
    | iri ref => exact assign?_alike o _ _ _ _
    | var v => exact fun _ => .refl _
    | lit l => exact fun _ => .refl _
  · split
    · exact property_alike o _ _ _ _ _
    · exact propertyVariable_alike o _ _ _ _
    · exact fun _ => .refl _

theorem comparison_alike (op : Comparison) (a b : Entity) :
    (comparison ⟨o, schema⟩ op a b).Alike (comparison ⟨o, schema'⟩ op a b) := by
  unfold comparison
  split
  · exact assign_alike o _ _ _ _
  · exact assign_alike o _ _ _ _
  · split
    · exact (share_alike o _ _ _ _).andThen (share_alike o _ _ _ _)
    · exact fun _ => .refl _
  · split
    · exact fun types => Alike.bind (.refl _) fun type => assign?_alike o _ _ _ _ types
    · exact fun _ => .refl _
  · split
    · exact fun types => Alike.bind (.refl _) fun type => assign?_alike o _ _ _ _ types
    · exact fun _ => .refl _
  · exact fun _ => .refl _

theorem filter_alike : ∀ e : Expression, (filter ⟨o, schema⟩ e).Alike (filter ⟨o, schema'⟩ e)
  | .entity _ => fun _ => .refl _
  | .compare left op right => by
    cases left with
    | entity a =>
      cases right with
      | entity b => exact comparison_alike o schema schema' op a b
      | _ => exact fun _ => .refl _
    | _ => exact fun _ => .refl _
  | .and left right => (filter_alike left).andThen (filter_alike right)
  | .or left right => (filter_alike left).andThen (filter_alike right)
  | .not inner => filter_alike inner
  | .call .regex [] | .call .lang [] | .call .langMatches [] => fun _ => .refl _
  | .call .regex (_ :: _) | .call .lang (_ :: _) => assign?_alike o schema schema' _ _
  | .call .langMatches (e :: _) => filter_alike e
  | .call .str _ | .call .bound _ => fun _ => .refl _

theorem subjectClass_alike (s : Statement) :
    (subjectClass ⟨o, schema⟩ s).Alike (subjectClass ⟨o, schema'⟩ s) := by
  intro types
  unfold subjectClass
  split
  · split
    · exact .refl _
    · split
      · exact .refl _
      · refine Alike.bind (.refl _) fun found => ?_
        dsimp only
        cases o.meet found with
        | mostSpecific type => exact assign_alike o _ _ _ _ types
        | unrelated first second => rfl
        | nothing => exact .refl _
  · exact .refl _

end Typist

/-- The steps do the same, or halt alike. -/
def Pass.Alike (a a' : Pass) : Prop :=
  ∀ p, OntoQuery.Alike Halt.kind (a p) (a' p)

/-- Both infer the same, or halt alike. -/
def Inferrer.Alike (a a' : Inferrer) : Prop :=
  ∀ p, OntoQuery.Alike Halt.kind (a p) (a' p)

namespace Pass

theorem Alike.andThen {a a' b b' : Pass} (ha : a.Alike a') (hb : b.Alike b') :
    (a.andThen b).Alike (a'.andThen b') :=
  fun p => (ha p).bind fun made => (hb made.1).bind fun _ => .refl _

theorem Alike.all {as as' : List Pass} (h : List.Forall₂ Alike as as') :
    (Pass.all as).Alike (Pass.all as') := by
  induction h with
  | nil => exact fun _ => .refl _
  | cons ha _ ih => exact ha.andThen ih

theorem Alike.ofRule {r r' : Rule} (h : r.Alike r') : (ofRule r).Alike (ofRule r') :=
  fun p => (p.attempt_alike (h p.types)).bind fun _ => .refl _

theorem Alike.settle {r r' : Rule} (h : r.Alike r') (rounds : Nat) :
    (settle r rounds).Alike (settle r' rounds) := by
  induction rounds with
  | zero => exact fun _ => .refl _
  | succ rounds ih =>
    intro p
    refine (Alike.ofRule h p).bind fun made => ?_
    dsimp only
    split
    · exact (ih made.1).bind fun _ => .refl _
    · exact .refl _

theorem Alike.iterate {a a' : Pass} (h : a.Alike a') (rounds : Nat) :
    Inferrer.Alike (iterate a rounds) (iterate a' rounds) := by
  induction rounds with
  | zero => exact fun _ => .refl _
  | succ rounds ih =>
    intro p
    refine (h p).bind fun made => ?_
    dsimp only
    split
    · exact ih made.1
    · exact .refl _

end Pass

theorem TypeMap.mergeBranch_alike (schema schema' : Schema) (seed merged branch : TypeMap) :
    Alike Fault.kind (mergeBranch schema seed merged branch)
      (mergeBranch schema' seed merged branch) := by
  refine Alike.foldlM (fun merged entry => ?_) branch.entries merged
  dsimp only
  split
  · exact .refl _
  · split
    · exact .refl _
    · split
      · exact .refl _
      · rfl

theorem TypeMap.gather_alike (schema schema' : Schema) (seed : TypeMap) {as as' : List Inferrer}
    (h : List.Forall₂ Inferrer.Alike as as') (merged : TypeMap) (exhausted : Bool) :
    Alike Halt.kind (gather schema seed as merged exhausted)
      (gather schema' seed as' merged exhausted) := by
  induction h generalizing merged exhausted with
  | nil => exact .refl _
  | cons ha _ ih =>
    refine (ha _).bind fun p => ?_
    exact (p.attempt_alike (mergeBranch_alike schema schema' seed merged p.types)).bind fun made =>
      ih made p.exhausted

theorem Pass.union_alike (schema schema' : Schema) {as as' : List Inferrer}
    (h : List.Forall₂ Inferrer.Alike as as') : (union schema as).Alike (union schema' as') :=
  fun p => (TypeMap.gather_alike schema schema' p.types h .empty p.exhausted).bind fun _ => .refl _

namespace Typist
variable (o : Ontology) (schema schema' : Schema) (rounds : Nat)

theorem round_alike (statements : List Statement) (filters : List Expression)
    {unions unions' : Pass} (h : unions.Alike unions') :
    (round ⟨o, schema⟩ rounds statements filters unions).Alike
      (round ⟨o, schema'⟩ rounds statements filters unions') := by
  have hrules : (Rule.all (statements.map (statement ⟨o, schema⟩) ++
      filters.map (filter ⟨o, schema⟩))).Alike
        (Rule.all (statements.map (statement ⟨o, schema'⟩) ++
          filters.map (filter ⟨o, schema'⟩))) :=
    .all (List.rel_append (forall₂_map fun s _ => statement_alike o schema schema' s)
      (forall₂_map fun e _ => filter_alike o schema schema' e))
  have hclasses : (Rule.all (statements.map (subjectClass ⟨o, schema⟩))).Alike
      (Rule.all (statements.map (subjectClass ⟨o, schema'⟩))) :=
    .all (forall₂_map fun s _ => subjectClass_alike o schema schema' s)
  intro p
  refine (((Pass.Alike.settle hrules rounds).andThen h) p).bind fun made => ?_
  dsimp only
  split
  · exact .refl _
  · exact Pass.Alike.ofRule hclasses made.1

theorem inferScope_alike (scope : Scope) :
    Inferrer.Alike (inferScope ⟨o, schema⟩ rounds scope)
      (inferScope ⟨o, schema'⟩ rounds scope) := by
  induction scope using Scope.by_unions with
  | mk statements filters unions ih =>
    rw [inferScope_mk, inferScope_mk]
    apply Pass.Alike.iterate
    apply round_alike
    refine .all (forall₂_map fun branches hbranches => ?_)
    exact Pass.union_alike schema schema' (forall₂_map (ih branches hbranches))

theorem infer_alike (body : Group) :
    Alike Halt.kind (infer ⟨o, schema⟩ rounds body) (infer ⟨o, schema'⟩ rounds body) :=
  inferScope_alike o schema schema' _ _ _

/-- What is known of an entity is the same in two schemas that show types alike. -/
theorem describe_eq {schema schema' : Schema} (h : schema = .simple ↔ schema' = .simple) :
    describe ⟨o, schema⟩ = describe ⟨o, schema'⟩ := by
  have hshown : shownType ⟨o, schema⟩ = shownType ⟨o, schema'⟩ := by
    funext type
    simp only [shownType, h]
  funext roles types e
  simp only [describe, propertyInfo, entityInfo, hshown]

end Typist

/-! ## Compiling -/

namespace Query

/-- The queries differ in how they spell IRIs, and in the schema for faults. -/
structure SaysSame (q q' : Query) : Prop where
  template : q.template.map Statement.flatten = q'.template.map Statement.flatten
  body : q.body.flatten = q'.body.flatten
  orderBy : q.orderBy = q'.orderBy
  page : q.page = q'.page
  simple : q.schema = .simple ↔ q'.schema = .simple

/-- The query written with internal IRIs. -/
def internal (q : Query) : Query :=
  { q with
    schema := .internal
    template := q.template.map Statement.flatten
    body := q.body.flatten }

theorem saysSame_internal {q : Query} (h : q.schema ≠ .simple) : q.SaysSame q.internal where
  template := by simp [internal]
  body := q.body.flatten_flatten.symm
  orderBy := rfl
  page := rfl
  simple := by simp [internal, h]

/-- The queries get the same types, and with given types they ask the same of the store; or else
both fail with faults of one kind. -/
structure CompilesLike (o : Ontology) (rounds : Nat) (d : Dialect) (size : UInt32) (q q' : Query) :
    Prop where
  types : Alike Fault.kind (q.inferTypes o rounds) (q'.inferTypes o rounds)
  store : ∀ types,
    Alike Fault.kind (q.toStore o types d size) (q'.toStore o types d size)

theorem inferTypes_alike {q q' : Query} (h : q.SaysSame q') (o : Ontology) (rounds : Nat) :
    Alike Fault.kind (q.inferTypes o rounds) (q'.inferTypes o rounds) := by
  have hroles : Roles.ofGroup q.body = Roles.ofGroup q'.body := by
    rw [← Roles.ofGroup_flatten, h.body, Roles.ofGroup_flatten]
  have hinfer : Typist.infer ⟨o, q.schema⟩ rounds q.body =
      Typist.infer ⟨o, q.schema⟩ rounds q'.body := by
    rw [← Typist.infer_flatten, h.body, Typist.infer_flatten]
  unfold inferTypes
  rw [hroles]
  dsimp only
  cases (Roles.ofGroup q'.body).conflict? with
  | some e => exact .refl _
  | none =>
    dsimp only
    rw [hinfer, Typist.describe_eq o h.simple]
    refine Alike.bind ?_ fun p => .refl _
    exact (Typist.infer_alike o _ _ rounds q'.body).mapError Prod.fst fun _ => rfl

theorem mainResource_flatten (q : Query) :
    Alike Fault.kind q.mainResource
      { q with template := q.template.map Statement.flatten : Query }.mainResource := by
  have hmarks : ∀ s : Statement,
      (s.flatten.hasMainPredicate && s.flatten.object == .lit (.boolean true)) =
        (s.hasMainPredicate && s.object == .lit (.boolean true)) := by
    intro s
    rw [Statement.hasMainPredicate_flatten]
    obtain ⟨subject, predicate, object⟩ := s
    cases object <;> rfl
  have hfound : ∀ template : List Statement,
      ((template.map Statement.flatten).find? (fun s =>
        s.hasMainPredicate && s.object == .lit (.boolean true)) <|>
          (template.map Statement.flatten).head?) =
        (template.find? (fun s => s.hasMainPredicate && s.object == .lit (.boolean true)) <|>
          template.head?).map Statement.flatten := by
    intro template
    rw [List.find?_map, List.head?_map]
    simp only [Function.comp_def, hmarks]
    cases template.find? (fun s => s.hasMainPredicate && s.object == .lit (.boolean true)) with
    | none => rfl
    | some s => rfl
  unfold mainResource
  dsimp only
  rw [hfound]
  cases (q.template.find? (fun s => s.hasMainPredicate && s.object == .lit (.boolean true)) <|>
    q.template.head?) with
  | none => exact .refl _
  | some s =>
    obtain ⟨subject, predicate, object⟩ := s
    cases subject with
    | var v => exact .refl _
    | iri ref => rfl
    | lit l => rfl

theorem toStore_alike {q q' : Query} (h : q.SaysSame q') (o : Ontology) (types : Types)
    (d : Dialect)
    (size : UInt32) : Alike Fault.kind (q.toStore o types d size) (q'.toStore o types d size) := by
  have hmain : Alike Fault.kind q.mainResource q'.mainResource := by
    have hflat : mainResource { q with template := q.template.map Statement.flatten } =
        mainResource { q' with template := q'.template.map Statement.flatten } := by
      unfold mainResource
      rw [h.template]
    exact (q.mainResource_flatten.trans (congrArg _ hflat)).trans q'.mainResource_flatten.symm
  unfold toStore Expander.storeBody Expander.storeTemplate
  rw [h.body, h.template, h.orderBy, h.page]
  exact hmain.bind fun main => .refl _

end Query

/-- **Queries that say the same compile alike.** Two queries with the same flattened body and
template, order and page, both in the simple schema or both not, get the same types whatever the
bound on rounds, and come to the same query to the store; where one fails, the other fails with a
fault of the same kind. So a query in the complex schema compiles like the same query with internal
IRIs. -/
theorem same_spelling_compiles_same (o : Ontology) (rounds : Nat) (d : Dialect) (size : UInt32) :
    (∀ q q' : Query, q.SaysSame q' → Query.CompilesLike o rounds d size q q') ∧
    ∀ q : Query, q.schema = .complex → Query.CompilesLike o rounds d size q q.internal := by
  have halike : ∀ q q' : Query, q.SaysSame q' → Query.CompilesLike o rounds d size q q' :=
    fun q q' h =>
      ⟨Query.inferTypes_alike h o rounds, fun types => Query.toStore_alike h o types d size⟩
  refine ⟨halike, ?_⟩
  intro q hq
  exact halike q q.internal (Query.saysSame_internal (by simp [hq]))

/-- A question for values, asked in the complex schema and with an internal IRI, is compiled
alike. -/
theorem same_spelling_compiles_same_value :
    let asked (schema : Schema) (property : Iri) : Query :=
      { schema
        template := [⟨.var ⟨"r"⟩, .ofIri property, .var ⟨"v"⟩⟩]
        body := [.optional [.statement ⟨.var ⟨"r"⟩, .ofIri property, .var ⟨"v"⟩⟩]] }
    let q := asked .complex "http://api.knora.org/ontology/knora-api/v2#hasValue"
    let q' := asked .internal Base.hasValue
    q.SaysSame q' ∧ q'.body = q.internal.body ∧
      ∃ o types, Ontology.build {} = .ok o ∧ q.inferTypes o 32 = .ok types ∧
        (q.toStore o types .fuseki 25).isOk = true ∧ Query.CompilesLike o 32 .fuseki 25 q q' := by
  intro asked q q'
  have hcomplex : (Entity.ofIri "http://api.knora.org/ontology/knora-api/v2#hasValue").flatten =
      Entity.ofIri Base.hasValue := by decide +kernel
  have hinternal : (Entity.ofIri Base.hasValue).flatten = Entity.ofIri Base.hasValue := by
    decide +kernel
  have hvar : ∀ v, (Entity.var v).flatten = .var v := fun _ => rfl
  have hsame : q.SaysSame q' := by
    refine ⟨?_, ?_, rfl, rfl, by decide⟩
    · simp [q, q', asked, Statement.flatten, Statement.map, hcomplex, hinternal]
    · simp [q, q', asked, Group.flatten, Pattern.maps, Pattern.map, Statement.map,
        hcomplex, hinternal]
  have hbody : q'.body = q.internal.body := by
    simp [q, q', asked, Query.internal, Group.flatten, Pattern.maps, Pattern.map, Statement.map,
      hcomplex, hvar]
  have hrun : ((Ontology.build {}).toOption.map fun o =>
      decide (((q.inferTypes o 32).toOption.map fun types =>
        (q.toStore o types .fuseki 25).isOk) = some true)) = some true := by decide +kernel
  obtain ⟨o, hbuild, hcompiled⟩ := Ontology.exists_built hrun
  obtain ⟨types, htypes, hstored⟩ := Option.map_eq_some_iff.1 hcompiled
  exact ⟨hsame, hbody, o, types, hbuild, eq_ok_of_toOption htypes, hstored,
    (same_spelling_compiles_same o 32 .fuseki 25).1 q q' hsame⟩

end OntoQuery
