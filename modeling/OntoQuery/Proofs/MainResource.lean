import OntoQuery.Proofs.Described
import OntoQuery.Proofs.ValuePermissions

/-!
# The permissions of the main resource

Results are counted and paged by the main resource, and whoever gets them needs its permissions.
`main_permissions_bound` says when they are there: if inference finds that the main resource is a
resource, or a value that a statement leads to. In the complex schema the check sees to it that it
is a resource or a value. The other schemas have no such rule, so there a variable of which nothing
is known can be the main resource, and it comes without permissions
(`unknown_main_without_permissions`).
-/

namespace OntoQuery

/-! ## Where a typed variable stands -/

/-- A place that is no predicate is the subject or the object of its statement. -/
theorem Roles.joins_of_mem {s : Statement} {v : Variable}
    (h : (.var v, false) ∈ Roles.ofStatement s) : s.Joins v := by
  obtain ⟨⟨e, asPredicate⟩, hplace, he⟩ := List.mem_filterMap.1 h
  obtain ⟨key, hkey, heq⟩ := Option.map_eq_some_iff.1 he
  cases heq
  rw [Typeable.ofEntity?_eq_var] at hkey
  subst hkey
  split at hplace
  · rw [List.mem_singleton] at hplace
    exact .inl (congrArg Prod.fst hplace).symm
  · simp only [List.mem_cons, List.not_mem_nil, or_false, Prod.mk.injEq, Bool.false_eq_true,
      and_false, and_true, false_or] at hplace
    exact hplace.imp Eq.symm Eq.symm

theorem Roles.joins_of_not_predicate {g : Group} {v : Variable}
    (horder : .var v ∈ (Roles.ofGroup g).order)
    (hpredicate : .var v ∉ (Roles.ofGroup g).predicates) : ∃ s ∈ g.statements, s.Joins v := by
  obtain ⟨s, hs, asPredicate, hplace⟩ := Roles.mem_order_iff.1 horder
  cases asPredicate with
  | false => exact ⟨s, hs, Roles.joins_of_mem hplace⟩
  | true => exact absurd (Roles.mem_predicates_iff.2 ⟨s, hs, hplace⟩) hpredicate

/-- A variable that inference finds to be a resource is the subject or the object of a statement. -/
theorem Query.joins_of_isResource {q : Query} {o : Ontology} {rounds : Nat} {types : Types}
    (h : q.inferTypes o rounds = .ok types) {v : Variable} (hv : types.isResource (.var v) = true) :
    ∃ s ∈ q.body.statements, s.Joins v := by
  unfold Types.isResource at hv
  split at hv
  · rename_i info hinfo
    obtain ⟨p, _, hfind⟩ := Query.find?_of_inferTypes h
    obtain ⟨horder, type, _, rfl⟩ := (hfind _ _).1 hinfo
    refine Roles.joins_of_not_predicate horder fun hpredicate => ?_
    -- A property is described as one, and no property is a resource.
    rw [Typist.info, if_pos hpredicate] at hv
    cases hv
  · cases hv

/-! ## The main resource of a query -/

theorem Query.mainResource_of_toStore {q : Query} {o : Ontology} {types : Types} {d : Dialect}
    {size : UInt32} {stored : StoreQuery} (h : q.toStore o types d size = .ok stored) :
    q.mainResource = .ok stored.content.mainResource :=
  (Query.toStore_stages h).1

theorem Query.template_of_mainResource {q : Query} {v : Variable} (h : q.mainResource = .ok v) :
    ∃ s ∈ q.template, s.subject = .var v := by
  unfold Query.mainResource at h
  dsimp only at h
  split at h
  · rename_i predicate object hs
    cases h
    have hmem : (⟨.var v, predicate, object⟩ : Statement) ∈ q.template := by
      rw [Option.orElse_eq_orElse, Option.orElse_eq_or] at hs
      rcases Option.or_eq_some_iff.1 hs with hmarked | ⟨_, hfirst⟩
      · exact List.mem_of_find?_eq_some hmarked
      · exact List.mem_of_head? hfirst
    exact ⟨_, hmem, rfl⟩
  · cases h
  · cases h

/-- In the complex schema a checked query constructs only resources and values. -/
theorem Query.node_of_check {q : Query} {types : Types} (h : q.check types = .ok ())
    (hschema : q.schema = .complex) {s : Statement} (hs : s ∈ q.template) {v : Variable}
    (hv : s.subject = .var v) :
    types.isResource (.var v) = true ∨ types.isValueNode (.var v) = true := by
  obtain ⟨_, _, hcheck⟩ := bind_eq_ok.1 (q.template_of_check h hs)
  obtain ⟨_, _, hcheck⟩ := bind_eq_ok.1 hcheck
  dsimp only at hcheck
  rw [if_pos rfl] at hcheck
  obtain ⟨_, htemplate, _⟩ := bind_eq_ok.1 hcheck
  obtain ⟨_, _, htemplate⟩ := bind_eq_ok.1 htemplate
  obtain ⟨_, _, htemplate⟩ := bind_eq_ok.1 htemplate
  obtain ⟨_, _, htemplate⟩ := bind_eq_ok.1 htemplate
  dsimp only at htemplate
  rw [if_pos hschema] at htemplate
  obtain ⟨_, hnode, _⟩ := bind_eq_ok.1 htemplate
  rw [hv] at hnode
  unfold Statement.checkNode at hnode
  dsimp only at hnode
  unfold Types.isResource Types.isValueNode
  split at hnode
  · cases hnode
  · rename_i info hinfo
    rw [hinfo]
    split at hnode
    · rename_i hkind
      exact Bool.or_eq_true_iff.1 hkind
    · cases hnode

/-- What a query comes to over an ontology, if it is typed, checked and compiled. -/
def Query.stored? (q : Query) (d : Dialect) :
    Except OntologyError Ontology → Option (Ontology × Types × StoreQuery)
  | .error _ => none
  | .ok o =>
    match q.inferTypes o 32 with
    | .error _ => none
    | .ok types =>
      match q.check types, q.toStore o types d defaultPageSize with
      | .ok (), .ok stored => some (o, types, stored)
      | _, _ => none

theorem Query.stored?_eq_some {q : Query} {d : Dialect} {built : Except OntologyError Ontology}
    {o : Ontology} {types : Types} {stored : StoreQuery}
    (h : q.stored? d built = some (o, types, stored)) :
    built = .ok o ∧ q.inferTypes o 32 = .ok types ∧ q.check types = .ok () ∧
      q.toStore o types d defaultPageSize = .ok stored := by
  unfold stored? at h
  split at h
  · cases h
  · split at h
    · cases h
    · rename_i htypes
      split at h
      · rename_i hchecked hstored
        cases h
        exact ⟨rfl, htypes, hchecked, hstored⟩
      · cases h

/-- What a query comes to can be computed, if it is typed, checked and compiled. -/
theorem Query.exists_stored (q : Query) (d : Dialect) (defs : Definitions)
    (P : Ontology → Types → StoreQuery → Prop) [∀ o types stored, Decidable (P o types stored)]
    (h : ((q.stored? d (Ontology.build defs)).map fun (o, types, stored) =>
      decide (P o types stored)) = some true) :
    ∃ o types stored, Ontology.build defs = .ok o ∧ q.inferTypes o 32 = .ok types ∧
      q.check types = .ok () ∧ q.toStore o types d defaultPageSize = .ok stored ∧
      P o types stored := by
  obtain ⟨⟨o, types, stored⟩, hstored, hP⟩ := Option.map_eq_some_iff.1 h
  obtain ⟨hbuilt, htypes, hchecked, hstored⟩ := Query.stored?_eq_some hstored
  exact ⟨o, types, stored, hbuilt, htypes, hchecked, hstored, of_decide_eq_true hP⟩

/-- **The permissions of the main resource are bound**, for either store, in every query that is
typed, checked and compiled, if the main resource is a resource, or a value that a statement leads
to. In the complex schema it is always a resource or a value. -/
theorem main_permissions_bound {q : Query} {o : Ontology} {rounds : Nat} {types : Types}
    {d : Dialect} {size : UInt32} {stored : StoreQuery} (htypes : q.inferTypes o rounds = .ok types)
    (hchecked : q.check types = .ok ()) (hstored : q.toStore o types d size = .ok stored) :
    (types.isResource (.var stored.content.mainResource) = true ∨
      types.isValueNode (.var stored.content.mainResource) = true ∧
        (∃ s ∈ q.body.flatten.statements, Expander.passage ⟨o, types⟩ s = .ok .value ∧
          s.object = .var stored.content.mainResource) →
      ⟨stored.content.mainResource, stored.content.mainResource.permissions⟩ ∈ stored.permissions) ∧
    (q.schema = .complex → types.isResource (.var stored.content.mainResource) = true ∨
      types.isValueNode (.var stored.content.mainResource) = true) := by
  obtain ⟨expanded, hexpanded, hgains, hpermissions⟩ := Query.toStore_ok hstored
  obtain ⟨⟨_, n⟩, hwhole, rfl⟩ := map_eq_ok.1 hexpanded
  constructor
  · rw [hpermissions]
    rintro (hr | ⟨hvalue, s, hs, hpassage, hobject⟩)
    · obtain ⟨s, hs, hjoins⟩ := Query.joins_of_isResource htypes hr
      have hflat : s.flatten ∈ q.body.flatten.statements := by
        rw [Group.statements_flatten]
        exact List.mem_map.2 ⟨s, hs, rfl⟩
      exact mem_permissions_of_marker hgains
        (Expander.marker_of_resource hwhole hflat (Statement.joins_flatten.2 hjoins) hr) rfl rfl
    · have hpieces := Expander.statements_of_becomes ⟨_, _, _, hwhole⟩
      obtain ⟨t, ht, hmarker, hsubject⟩ :=
        hpieces.marker_of_marks hvalue hs (.inl ⟨hpassage, hobject⟩)
      exact mem_permissions_of_marker hgains ht hmarker hsubject
  · intro hschema
    obtain ⟨s, hs, hsubject⟩ :=
      Query.template_of_mainResource (Query.mainResource_of_toStore hstored)
    exact Query.node_of_check hchecked hschema hs hsubject

/-- Asks for a resource that may have a value. -/
def possibleValues : Query where
  schema := .complex
  template :=
    [⟨.var ⟨"r"⟩, .ofIri (Complex.vocabulary ++ "isMainResource"), .lit (.boolean true)⟩]
  body :=
    [.optional [.triple (.var ⟨"r"⟩) (.ofIri (Complex.vocabulary ++ "hasValue")) (.var ⟨"v"⟩)]]

/-- The main resource has its permissions bound also if it stands under OPTIONAL only. -/
theorem main_permissions_bound_optional :
    ∃ o types stored, Ontology.build {} = .ok o ∧ possibleValues.inferTypes o 32 = .ok types ∧
      possibleValues.check types = .ok () ∧
      possibleValues.toStore o types .fuseki defaultPageSize = .ok stored ∧
      types.isResource (.var stored.content.mainResource) = true ∧
      ⟨stored.content.mainResource, stored.content.mainResource.permissions⟩ ∈
        stored.permissions := by
  have hrun : (possibleValues.stored? .fuseki (Ontology.build {})).map (fun (_, types, stored) =>
      types.isResource (.var stored.content.mainResource)) = some true := by decide +kernel
  obtain ⟨⟨o, types, stored⟩, hstored, hr⟩ := Option.map_eq_some_iff.1 hrun
  obtain ⟨hbuilt, htypes, hchecked, hstored⟩ := Query.stored?_eq_some hstored
  exact ⟨o, types, stored, hbuilt, htypes, hchecked, hstored, hr,
    (main_permissions_bound htypes hchecked hstored).1 (.inl hr)⟩

/-- Asks for everything that has a type. -/
def anythingTyped : Query where
  schema := .simple
  template :=
    [⟨.var ⟨"x"⟩, .ofIri (Simple.vocabulary ++ "isMainResource"), .lit (.boolean true)⟩]
  body := [.triple (.var ⟨"x"⟩) (.ofIri Rdf.type) (.var ⟨"class"⟩)]

/-- **A main resource of which nothing is known comes without permissions.** In the simple schema a
query for everything that has a type is typed, checked and compiled, and no permissions are
reported. -/
theorem unknown_main_without_permissions :
    ∃ o types stored, Ontology.build {} = .ok o ∧ anythingTyped.inferTypes o 32 = .ok types ∧
      anythingTyped.check types = .ok () ∧
      anythingTyped.toStore o types .graphDb defaultPageSize = .ok stored ∧
      ⟨stored.content.mainResource, stored.content.mainResource.permissions⟩ ∉
        stored.permissions := by
  have hrun : (anythingTyped.stored? .graphDb (Ontology.build {})).map (·.2.2.permissions) =
      some [] := by decide +kernel
  obtain ⟨⟨o, types, stored⟩, hstored, hnone⟩ := Option.map_eq_some_iff.1 hrun
  obtain ⟨hbuilt, htypes, hchecked, hstored⟩ := Query.stored?_eq_some hstored
  refine ⟨o, types, stored, hbuilt, htypes, hchecked, hstored, ?_⟩
  rw [hnone]
  exact List.not_mem_nil

end OntoQuery
