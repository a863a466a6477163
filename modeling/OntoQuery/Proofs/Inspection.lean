import Mathlib.Data.List.Induction
import OntoQuery.Proofs.Checkpoints
import OntoQuery.Proofs.StoredForm
import OntoQuery.Proofs.Subsumption
import OntoQuery.Proofs.TemplateVariables

/-!
# The shape of what inference tells

Which entities a body has, and which of them are predicates, is collected from its statements; which
types they have is inferred scope by scope. The types of a query are put together from both. Here it
is proved what this gives (`inspection_shape`): each entity is listed once, in the order in which
they first stand in the body, predicates are told as properties and all else as entities of their
own, and no entity is both.
-/

namespace OntoQuery

/-! ## The places of a body -/

/-- The places of a statement whose entities are typed, from left to right. In a type statement only
the subject is one. -/
def Statement.typedPlaces (s : Statement) : List Entity :=
  if s.isType then [s.subject] else [s.subject, s.predicate, s.object]

namespace Group

/-- What stands at the typed places of a body, from left to right at any depth. -/
def occurrences (g : Group) : List Typeable :=
  (g.preorder.filterMap Pattern.statement?).flatMap fun s =>
    s.typedPlaces.filterMap Typeable.ofEntity?

/-- The entity is the predicate of a statement at some depth that is no type statement. -/
def HasPredicate (g : Group) (e : Typeable) : Prop :=
  ∃ s, g.Has (.statement s) ∧ s.isType = false ∧ Typeable.ofEntity? s.predicate = some e

/-- The entity is the subject of a statement at some depth, or the object of one that is no type
statement. -/
def HasNode (g : Group) (e : Typeable) : Prop :=
  ∃ s, g.Has (.statement s) ∧
    (Typeable.ofEntity? s.subject = some e ∨ s.isType = false ∧
      Typeable.ofEntity? s.object = some e)

theorem statements_cons (p : Pattern) (ps : Group) :
    statements (p :: ps) = p.statement?.toList ++
      (p.groups.flatMap statements ++ statements ps) := by
  cases p with
  | statement s => rfl
  | optional g => simp [Pattern.statement?, Pattern.groups]
  | union gs => simp [Pattern.statement?, Pattern.groups]
  | filter e => simp [Pattern.statement?, Pattern.groups]
  | minus g => simp [Pattern.statement?, Pattern.groups]

/-- The statements of a body stand in the order in which its patterns are written. -/
theorem statements_eq_preorder (g : Group) :
    g.statements = g.preorder.filterMap Pattern.statement? := by
  induction g using Group.by_groups with
  | nil => rfl
  | cons p ps ihg ih =>
    have hgroups : p.groups.flatMap statements =
        (p.groups.flatMap preorder).filterMap Pattern.statement? := by
      rw [List.filterMap_flatMap]
      exact List.flatMap_congr ihg
    rw [statements_cons, preorder_cons, hgroups, ih, ← List.filterMap_append, List.filterMap_cons]
    cases p.statement? <;> rfl

theorem mem_statements_iff {g : Group} {s : Statement} : s ∈ g.statements ↔
    g.Has (.statement s) := by
  rw [statements_eq_preorder, ← mem_preorder, List.mem_filterMap]
  constructor
  · rintro ⟨p, hp, hs⟩
    cases p <;> cases hs
    exact hp
  · intro hs
    exact ⟨_, hs, rfl⟩

end Group

namespace Roles
variable {g : Group} {e : Typeable}

theorem map_ofStatement (s : Statement) :
    (ofStatement s).map (·.1) = s.typedPlaces.filterMap Typeable.ofEntity? := by
  have hplaces : ∀ places : List (Entity × Bool),
      (places.filterMap fun place => (Typeable.ofEntity? place.1).map (·, place.2)).map (·.1) =
        (places.map (·.1)).filterMap Typeable.ofEntity? := by
    intro places
    rw [List.map_filterMap, List.filterMap_map]
    congr 1
    funext place
    cases h : Typeable.ofEntity? place.1 <;> simp [h]
  refine (hplaces _).trans ?_
  unfold Statement.typedPlaces
  split <;> rfl

theorem order_eq (g : Group) : (ofGroup g).order = g.occurrences.eraseDups := by
  have hplaces : (g.statements.flatMap ofStatement).map (·.1) = g.occurrences := by
    rw [List.map_flatMap, Group.statements_eq_preorder, Group.occurrences]
    simp only [map_ofStatement]
  exact congrArg List.eraseDups hplaces

theorem mem_ofStatement {s : Statement} {asPredicate : Bool} :
    (e, asPredicate) ∈ ofStatement s ↔
      match asPredicate with
      | true => s.isType = false ∧ Typeable.ofEntity? s.predicate = some e
      | false => Typeable.ofEntity? s.subject = some e ∨
          s.isType = false ∧ Typeable.ofEntity? s.object = some e := by
  unfold ofStatement
  cases s.isType <;> cases asPredicate <;> simp [List.mem_filterMap]

theorem mem_predicates : e ∈ (ofGroup g).predicates ↔ g.HasPredicate e := by
  simp [mem_predicates_iff, mem_ofStatement, Group.HasPredicate, Group.mem_statements_iff]

theorem mem_others : e ∈ (ofGroup g).others ↔ g.HasNode e := by
  simp [mem_others_iff, mem_ofStatement, Group.HasNode, Group.mem_statements_iff]

theorem mem_order : e ∈ (ofGroup g).order ↔ g.HasPredicate e ∨ g.HasNode e := by
  rw [← mem_predicates, ← mem_others, mem_order_iff, mem_predicates_iff, mem_others_iff]
  constructor
  · rintro ⟨s, hs, asPredicate, hplace⟩
    cases asPredicate with
    | true => exact .inl ⟨s, hs, hplace⟩
    | false => exact .inr ⟨s, hs, hplace⟩
  · rintro (⟨s, hs, hplace⟩ | ⟨s, hs, hplace⟩)
    · exact ⟨s, hs, true, hplace⟩
    · exact ⟨s, hs, false, hplace⟩

end Roles

/-! ## The order of first occurrence -/

/-- Without repetitions, a list is in the order in which its members first occur. -/
theorem pairwise_eraseDups {α : Type} [DecidableEq α] (as : List α) :
    as.eraseDups.Pairwise fun a b => as.idxOf a < as.idxOf b := by
  induction as using List.reverseRecOn with
  | nil => exact .nil
  | append_singleton as last ih =>
    have hold : ∀ a ∈ as, (as ++ [last]).idxOf a = as.idxOf a :=
      fun a ha => List.idxOf_append_of_mem ha
    have hkept : as.eraseDups.Pairwise fun a b =>
        (as ++ [last]).idxOf a < (as ++ [last]).idxOf b := by
      refine ih.imp_of_mem ?_
      intro a b ha hb hlt
      rwa [hold a (List.mem_eraseDups.1 ha), hold b (List.mem_eraseDups.1 hb)]
    rw [List.eraseDups_append]
    by_cases hlast : last ∈ as
    · simpa [List.removeAll, hlast] using hkept
    · have hnew : [last].removeAll as = [last] := by simp [List.removeAll, hlast]
      rw [hnew, List.pairwise_append]
      refine ⟨hkept, List.pairwise_singleton _ _, ?_⟩
      intro a ha b hb
      have hlt : as.idxOf a < as.length := List.idxOf_lt_length_of_mem (List.mem_eraseDups.1 ha)
      cases List.mem_singleton.1 (List.mem_eraseDups.1 hb)
      rw [hold a (List.mem_eraseDups.1 ha), List.idxOf_append_of_notMem hlast]
      omega

/-! ## What is told -/

namespace Typist
variable {t : Typist} {roles : Roles} {types : TypeMap} {e : Typeable}

/-- What is told of an entity: nothing if no type of it has been found, which must not be so for a
property variable, and otherwise the info of a property or of an entity of its own. -/
theorem describe_ok {told : Option (Typeable × TypeInfo)}
    (h : t.describe roles types e = .ok told) :
    (types.contains e = false ∧ told = none ∧ (e ∈ roles.predicates → ∀ v, e ≠ .var v)) ∨
    ∃ info, types.contains e = true ∧ told = some (e, info) ∧
      (info.isProperty = true ↔ e ∈ roles.predicates) := by
  cases told with
  | none =>
    obtain ⟨hfound, huntyped⟩ := describe_eq_none.1 h
    exact .inl ⟨by rw [OrderedMap.contains, hfound]; rfl, rfl, huntyped⟩
  | some told =>
    obtain ⟨type, hfound, rfl⟩ := describe_eq_some.1 h
    exact .inr ⟨_, by rw [OrderedMap.contains, hfound]; rfl, rfl, isProperty_info⟩

/-- The entities that are told of are those of which a type has been found, in their order. -/
theorem keys_of_described {order : List Typeable} {infos : List (Option (Typeable × TypeInfo))}
    (h : List.Forall₂ (fun e info => t.describe roles types e = .ok info) order infos) :
    (infos.filterMap id).map Prod.fst = order.filter types.contains := by
  induction h with
  | nil => rfl
  | @cons e told _ _ htold _ ih =>
    obtain ⟨hcontains, rfl, _⟩ | ⟨info, hcontains, rfl, _⟩ := describe_ok htold
    · rw [List.filterMap_cons_none rfl, List.filter_cons_of_neg (by simp [hcontains]), ih]
    · rw [List.filter_cons_of_pos hcontains, ← ih]
      rfl

end Typist

/-- The types of a query are the descriptions of what stands in its body, and nothing there is both
a predicate and a node. -/
theorem Query.inferTypes_ok {q : Query} {o : Ontology} {rounds : Nat} {types : Types}
    (h : q.inferTypes o rounds = .ok types) :
    (∀ e, q.body.HasPredicate e → ¬ q.body.HasNode e) ∧
    ∃ p infos, Typist.infer ⟨o, q.schema⟩ rounds q.body = .ok p ∧
      List.Forall₂ (fun e info =>
        Typist.describe ⟨o, q.schema⟩ (Roles.ofGroup q.body) p.types e = .ok info)
        (Roles.ofGroup q.body).order infos ∧
      types.entries = infos.filterMap id := by
  obtain ⟨hroles, htold⟩ := described_of_inferTypes h
  refine ⟨fun e hpredicate hnode => ?_, htold⟩
  exact hroles e (Roles.mem_predicates.2 hpredicate) (Roles.mem_others.2 hnode)

/-- What stands in the body as a predicate or a node is stored under the name it is listed by. -/
theorem Typeable.toInternal_of_ofEntity? {entity : Entity} {iri : Iri}
    (h : Typeable.ofEntity? entity = some (.iri iri)) : iri.toInternal = iri := by
  cases entity <;> cases h
  exact Iri.toInternal_toInternal _

/-- **The shape of the types of a query.** Whatever stands in the body as a predicate or a node, at
any depth, is listed exactly if a type of it has been found, once and in the order of first
occurrence. A predicate is told as a property, and everything else as an entity of its own; nothing
is both. A variable that is a predicate always has a type. -/
theorem inspection_shape {q : Query} {o : Ontology} {rounds : Nat} {types : Types}
    (h : q.inferTypes o rounds = .ok types) :
    types.keys.Nodup ∧
    types.keys.Pairwise (fun e e' => q.body.occurrences.idxOf e < q.body.occurrences.idxOf e') ∧
    (∀ e info, (e, info) ∈ types.entries → (info.isProperty = true ↔ q.body.HasPredicate e)) ∧
    (∀ e, q.body.HasPredicate e → ¬ q.body.HasNode e) ∧
    (∀ s v, q.body.Has (.statement s) → s.predicate = .var v → .var v ∈ types.keys) ∧
    (∀ e ∈ types.keys, ∀ iri, e = .iri iri → iri.toInternal = iri) ∧
    ∃ p, Typist.infer ⟨o, q.schema⟩ rounds q.body = .ok p ∧
      ∀ e, e ∈ types.keys ↔ (q.body.HasPredicate e ∨ q.body.HasNode e) ∧
        p.types.contains e = true := by
  obtain ⟨hroles, p, infos, hp, hinfos, hentries⟩ := Query.inferTypes_ok h
  have hkeys : types.keys = (Roles.ofGroup q.body).order.filter p.types.contains := by
    rw [OrderedMap.keys, hentries, Typist.keys_of_described hinfos]
  have horder : types.keys.Sublist q.body.occurrences.eraseDups := by
    rw [hkeys, Roles.order_eq]
    exact List.filter_sublist
  have hmem : ∀ e, e ∈ types.keys ↔
      (q.body.HasPredicate e ∨ q.body.HasNode e) ∧ p.types.contains e = true := by
    intro e
    rw [hkeys, List.mem_filter, Roles.mem_order]
  refine ⟨horder.nodup (nodup_eraseDups _), (pairwise_eraseDups _).sublist horder, ?_, hroles,
    ?_, ?_, p, hp, hmem⟩
  · intro e info hinfo
    rw [hentries] at hinfo
    obtain ⟨_, htold, rfl⟩ := List.mem_filterMap.1 hinfo
    obtain ⟨_, _, hdescribe⟩ := exists_of_mem_right hinfos htold
    obtain ⟨_, hnone, _⟩ | ⟨_, _, hsome, hproperty⟩ := Typist.describe_ok hdescribe
    · cases hnone
    · cases hsome
      rw [hproperty, Roles.mem_predicates]
  · rintro ⟨_, _, _⟩ v hs rfl
    have hpredicate : q.body.HasPredicate (.var v) := ⟨_, hs, rfl, rfl⟩
    have hlisted := Roles.mem_order.2 (.inl hpredicate)
    obtain ⟨_, _, hdescribe⟩ := exists_of_mem_left hinfos hlisted
    obtain ⟨_, _, huntyped⟩ | ⟨_, htyped, _⟩ := Typist.describe_ok hdescribe
    · exact absurd rfl (huntyped (Roles.mem_predicates.2 hpredicate) v)
    · exact (hmem _).2 ⟨.inl hpredicate, htyped⟩
  · rintro _ he iri rfl
    obtain ⟨⟨s, _, _, hs⟩ | ⟨s, _, hs | ⟨_, hs⟩⟩, _⟩ := (hmem _).1 he
    all_goals exact Typeable.toInternal_of_ofEntity? hs

/-- Asks for the page of a resource, and in one of two alternatives for a property that a filter
fixes. -/
def optionalNames : Query where
  schema := .simple
  template := []
  body :=
    [.optional [.union
      [[.statement ⟨.var ⟨"r"⟩, .var ⟨"p"⟩, .var ⟨"name"⟩⟩,
        .filter (.compare (.entity (.var ⟨"p"⟩)) .eq
          (.entity (.ofIri "http://0.0.0.0:3333/ontology/0001/house/simple/v2#hasName")))],
       [.statement ⟨.var ⟨"r"⟩, .ofIri (Simple.vocabulary ++ "label"), .var ⟨"label"⟩⟩]]],
     .statement hasPage]

/-- What stands in the first alternative is listed before the page, of the second nothing is
known. -/
theorem inspection_shape_names :
    let listed : List Typeable :=
      [.var ⟨"r"⟩, .var ⟨"p"⟩, .var ⟨"name"⟩,
       .iri "http://www.knora.org/ontology/0001/house#hasPage", .iri "http://rdfh.ch/page"]
    ∃ o types, Ontology.build namedPages = .ok o ∧ optionalNames.inferTypes o 32 = .ok types ∧
      types.keys = listed ∧
      listed.Pairwise (fun e e' =>
        optionalNames.body.occurrences.idxOf e < optionalNames.body.occurrences.idxOf e') ∧
      ¬ optionalNames.body.HasNode (.var ⟨"p"⟩) := by
  intro listed
  have hrun : ((Ontology.build namedPages).toOption.map fun o => decide (
      (optionalNames.inferTypes o 32).toOption.map (·.keys) = some listed)) = some true := by
    decide +kernel
  obtain ⟨o, hbuild, hlisted⟩ := Ontology.exists_built hrun
  obtain ⟨types, htypes, hkeys⟩ := Option.map_eq_some_iff.1 hlisted
  have htypes := eq_ok_of_toOption htypes
  obtain ⟨_, horder, _, hroles, _⟩ := inspection_shape htypes
  rw [hkeys] at horder
  have hnamed : optionalNames.body.Has (.statement ⟨.var ⟨"r"⟩, .var ⟨"p"⟩, .var ⟨"name"⟩⟩) := by
    rw [← Group.mem_statements_iff]
    decide +kernel
  exact ⟨o, types, hbuild, htypes, hkeys, horder, hroles _ ⟨_, hnamed, rfl, rfl⟩⟩

end OntoQuery
