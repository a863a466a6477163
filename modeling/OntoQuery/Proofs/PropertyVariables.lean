import OntoQuery.Proofs.TemplateVariables
import OntoQuery.Proofs.ValueTypes

/-!
# Property variables that stand for a property

A filter can say which property a variable stands for. The variable then has the object type of the
property, and that type tells whether it leads to values or to resources. Of the property itself its
place in the hierarchy tells this. `fixed_property_variable` compares the two: they agree exactly if
the object type is of the sort that the place says, and then a statement with the variable is
matched by way of a value node exactly if a statement with the property is. Properties of contents
are where they differ, since the object type is a datatype there and nothing is below `hasValue`
(`content_variable_leads_to_value`).

That the variable has this type and no other is an invariant: where only one type is ever demanded
of some entities, they have that type or none (`TypeMap.Only`).
-/

namespace OntoQuery

/-! ## Where only one type is demanded -/

/-- The entities have this type, or none. -/
def TypeMap.Only (types : TypeMap) (entities : List Typeable) (type : Iri) : Prop :=
  ∀ e ∈ entities, ∀ found, types.find? e = some found → found = type

/-- The demand gives none of the entities another type than this, if they have none so far. -/
def Demand.Respects (entities : List Typeable) (type : Iri) : Demand → Prop
  | .refuse _ => True
  | .typed e found => e ∈ entities → found = type
  | .same v w => .var v ∈ entities ↔ .var w ∈ entities
  | .follow v (.lit l) => .var v ∈ entities → l.datatype = type
  | .follow v object => ∀ e, Typeable.ofEntity? object = some e → (.var v ∈ entities ↔ e ∈ entities)

section
variable {entities : List Typeable} {type : Iri}

theorem TypeMap.Only.insert {types : TypeMap} (h : types.Only entities type) {e : Typeable}
    {found : Iri} (he : e ∈ entities → found = type) :
    TypeMap.Only (types.insert e found) entities type := by
  intro e' he' found' hfound'
  rw [OrderedMap.find?_insert] at hfound'
  split at hfound'
  · rename_i heq
    cases hfound'
    exact he (heq ▸ he')
  · exact h e' he' found' hfound'

namespace Typist
variable {t : Typist}

theorem assign_only {types types' : TypeMap} (h : types.Only entities type) {e : Typeable}
    {found : Iri} (he : e ∈ entities → found = type) {changed : Bool}
    (hrun : t.assign e found types = .ok (types', changed)) : types'.Only entities type := by
  cases assign_ok hrun with
  | inl hkept => exact hkept.2.1 ▸ h
  | inr hgiven => exact hgiven.2.1 ▸ h.insert he

theorem share_only {types types' : TypeMap} (h : types.Only entities type) {a b : Typeable}
    (hab : b ∈ entities → a ∈ entities) {changed : Bool}
    (hrun : t.share a (some b) types = .ok (types', changed)) : types'.Only entities type := by
  unfold share at hrun
  cases ha : types.find? a with
  | none =>
    rw [ha] at hrun
    cases hrun
    exact h
  | some found =>
    rw [ha] at hrun
    exact assign_only h (fun hb => h a (hab hb) found ha) hrun

theorem impose_only {types types' : TypeMap} (h : types.Only entities type) {d : Demand}
    (hd : d.Respects entities type) {changed : Bool}
    (hrun : t.impose d types = .ok (types', changed)) : types'.Only entities type := by
  cases d with
  | refuse fault => cases hrun
  | typed e found => exact assign_only h hd hrun
  | same v w =>
    obtain ⟨middle, _, _, hfirst, hsecond, _⟩ := Rule.andThen_ok hrun
    exact share_only (share_only h hd.2 hfirst) hd.1 hsecond
  | follow v object =>
    change t.propertyVariable v object types = _ at hrun
    unfold propertyVariable at hrun
    split at hrun
    · rename_i found hv
      cases hobject : Typeable.ofEntity? object with
      | none =>
        rw [hobject] at hrun
        cases hrun
        exact h
      | some e =>
        rw [hobject] at hrun
        refine assign_only h (fun he => h (.var v) ?_ found hv) hrun
        cases object with
        | lit l => cases hobject
        | var w => exact (hd e hobject).2 he
        | iri ref => exact (hd e hobject).2 he
    · cases object with
      | lit l => exact assign_only h hd hrun
      | var w => exact share_only h (hd (.var w) rfl).1 hrun
      | iri ref => exact share_only h (hd _ rfl).1 hrun

theorem imposeAll_only {ds : List Demand} (hds : ∀ d ∈ ds, d.Respects entities type)
    {types types' : TypeMap} (h : types.Only entities type) {changed : Bool}
    (hrun : t.imposeAll ds types = .ok (types', changed)) : types'.Only entities type := by
  induction ds generalizing types changed with
  | nil =>
    cases hrun
    exact h
  | cons d ds ih =>
    obtain ⟨middle, _, _, hfirst, hrest, _⟩ := Rule.andThen_ok hrun
    rw [List.forall_mem_cons] at hds
    exact ih hds.2 (impose_only h hds.1 hfirst) hrest

end Typist

end

/-! ## What every step keeps -/

namespace Typist
variable {t : Typist}

/-- The rule by subject classes does nothing for a property variable that has a type. -/
theorem subjectClass_typed {s : Statement} {types : TypeMap}
    (h : ∀ v, s.predicate = .var v → types.contains (.var v) = true) :
    t.subjectClass s types = .ok (types, false) := by
  unfold subjectClass
  split
  · rename_i v _ _ hpredicate _
    rw [h v hpredicate, Bool.true_or, if_pos rfl]
  · rfl

theorem classes_typed {statements : List Statement} {types : TypeMap}
    (h : ∀ s ∈ statements, ∀ v, s.predicate = .var v → types.contains (.var v) = true) :
    Rule.all (statements.map t.subjectClass) types = .ok (types, false) := by
  induction statements with
  | nil => rfl
  | cons s ss ih =>
    rw [List.forall_mem_cons] at h
    exact Rule.andThen_eq_ok (subjectClass_typed h.1) (ih h.2)

section
variable {entities : List Typeable} {type : Iri} {statements : List Statement}
  {filters : List Expression}

/-- **Entities of which only one type is demanded get that type or none**, in a scope without unions
in which the type of each property variable is demanded. -/
theorem inferScope_only (hds : ∀ d ∈ t.demands statements filters, d.Respects entities type)
    (hvars : ∀ s ∈ statements, ∀ v, s.predicate = .var v →
      ∃ found, .typed (.var v) found ∈ t.demands statements filters)
    {rounds : Nat} (hrounds : 0 < rounds) {p p' : Progress} (h : p.types.Only entities type)
    (hrun : t.inferScope rounds (.mk statements filters []) p = .ok p') :
    p'.types.Only entities type := by
  refine Pass.iterate_keeps (TypeMap.Only · entities type) ?_ h hrun
  intro p p' changed h hround
  have settled : ∀ {last moved}, (Pass.settle (Rule.all (statements.map t.statement ++
      filters.map t.filter)) rounds).andThen (t.mergeUnions rounds []) p = .ok (last, moved) →
      last.types.Only entities type ∧
        ∀ s ∈ statements, ∀ v, s.predicate = .var v → last.types.contains (.var v) = true := by
    intro last moved hfirst
    obtain ⟨middle, _, _, hsettle, hidle, _⟩ := Pass.andThen_ok hfirst
    cases hidle
    rw [rules_eq] at hsettle
    refine ⟨Pass.settle_keeps _ (fun h hrun => imposeAll_only hds h hrun) h hsettle, ?_⟩
    intro s hs v hv
    obtain ⟨found, hfound⟩ := hvars s hs v hv
    exact imposed_of_settle hrounds hsettle _ hfound
  cases t.round_ok rounds hround with
  | inl hmoved => exact (settled hmoved.2).1
  | inr hstill =>
    obtain ⟨middle, hfirst, hclasses⟩ := hstill
    obtain ⟨honly, hcontains⟩ := settled hfirst
    have hsame := (classes_typed hcontains).symm.trans (Pass.ofRule_ok hclasses)
    have htypes : middle.types = p'.types := congrArg Prod.fst (Except.ok.inj hsame)
    exact htypes ▸ honly

/-- An entity of which this type is demanded, and no other, has it. -/
theorem find?_of_only (hds : ∀ d ∈ t.demands statements filters, d.Respects entities type)
    (hvars : ∀ s ∈ statements, ∀ v, s.predicate = .var v →
      ∃ found, .typed (.var v) found ∈ t.demands statements filters)
    {e : Typeable} (he : e ∈ entities) (htyped : .typed e type ∈ t.demands statements filters)
    {rounds : Nat} (hrounds : 0 < rounds) {p : Progress}
    (hrun : t.inferScope rounds (.mk statements filters []) ⟨.empty, false⟩ = .ok p) :
    p.types.find? e = some type := by
  have hempty : TypeMap.Only .empty entities type := by
    intro e _ found h
    cases h
  have honly := inferScope_only hds hvars hrounds hempty hrun
  have hdemands : .typed e type ∈ (Scope.mk statements filters []).demands t := by
    rw [Scope.demands_mk]
    exact List.mem_append_left _ htyped
  have hcontains : p.types.contains e = true := inferScope_reaches hrounds hrun _ hdemands
  obtain ⟨found, hfound⟩ := Option.isSome_iff_exists.1 hcontains
  rw [hfound, honly e he found hfound]

end

end Typist

/-- A predicate is described as a property with the type that has been found of it. -/
theorem Query.find?_of_predicate {q : Query} {o : Ontology} {rounds : Nat} {types : Types}
    (h : q.inferTypes o rounds = .ok types) {s : Statement} (hs : s ∈ q.body.statements)
    {e : Typeable} (he : (e, true) ∈ Roles.ofStatement s) {type : Iri}
    (htype : ∀ p, Typist.infer ⟨o, q.schema⟩ rounds q.body = .ok p → p.types.find? e = some type) :
    types.find? e = some (Typist.propertyInfo ⟨o, q.schema⟩ e type) := by
  obtain ⟨p, hp, hfind⟩ := find?_of_inferTypes h
  have horder := Roles.mem_order_iff.2 ⟨s, hs, true, he⟩
  refine (hfind e _).2 ⟨horder, type, htype p hp, ?_⟩
  rw [Typist.info, if_pos (Roles.mem_predicates_iff.2 ⟨s, hs, he⟩)]

/-! ## A property variable and the property that it stands for -/

section
variable (s p object : Variable) (ref : IriRef)

/-- Some property leads from one variable to another, and a filter says which. -/
def Group.byVariable : Group :=
  [.triple (.var s) (.var p) (.var object),
    .filter (.compare (.entity (.var p)) .eq (.entity (.iri ref)))]

/-- The property leads from one variable to another. -/
def Group.byProperty : Group :=
  [.triple (.var s) (.iri ref) (.var object)]

end

namespace Typist
variable {t : Typist} {s p object : Variable} {ref : IriRef} {type : Iri}

variable (s p object) in
theorem demands_byVariable (htype : t.ontology.objectType ref.iri.toInternal = .ok (some type)) :
    t.demands [⟨.var s, .var p, .var object⟩]
        [.compare (.entity (.var p)) .eq (.entity (.iri ref))] =
      [.follow p (.var object), .typed (.var p) type] := by
  have hfilter : t.filterDemands (.compare (.entity (.var p)) .eq (.entity (.iri ref))) =
      [.typed (.var p) type] := by
    change t.comparisonDemands .eq (.var p) (.iri ref) = _
    rw [comparisonDemands, if_pos rfl, htype]
    rfl
  change [.follow p (.var object)] ++ (t.filterDemands _ ++ []) = _
  rw [hfilter]
  rfl

/-- The variable has the object type of the property, however few rounds there are. -/
theorem find?_byVariable (htype : t.ontology.objectType ref.iri.toInternal = .ok (some type))
    {rounds : Nat} {found : Progress}
    (h : t.infer rounds (Group.byVariable s p object ref) = .ok found) :
    found.types.find? (.var p) = some type := by
  have hdemands := demands_byVariable s p object htype
  have htyped : .typed (.var p) type ∈ t.demands [⟨.var s, .var p, .var object⟩]
      [.compare (.entity (.var p)) .eq (.entity (.iri ref))] := by
    rw [hdemands]
    exact List.mem_cons_of_mem _ (List.mem_singleton_self _)
  refine @find?_of_only t [.var p, .var object] type _ _ ?_ ?_ _ List.mem_cons_self htyped _
    (Nat.le_max_right rounds 1) _ h
  · rw [hdemands, List.forall_mem_cons, List.forall_mem_singleton]
    constructor
    · intro e he
      cases he
      simp
    · exact fun _ => rfl
  · rw [List.forall_mem_singleton]
    intro v hv
    cases hv
    exact ⟨type, htyped⟩

theorem isType_byProperty (hname : ref.iri ≠ Rdf.type) :
    Statement.isType ⟨.var s, .iri ref, .var object⟩ = false := by
  simpa [Statement.isType, Entity.isRdfType, Entity.isIri] using hname

variable (s object) in
/-- A property has to be of its object type, if it can be asked for its types at all, and else only
variables have to be of some. -/
theorem demands_byProperty (hname : ref.iri ≠ Rdf.type)
    (htype : t.ontology.objectType ref.iri.toInternal = .ok (some type)) :
    (∃ fault, .refuse fault ∈ t.demands [⟨.var s, .iri ref, .var object⟩] []) ∨
      .typed (.iri ref.iri.toInternal) type ∈ t.demands [⟨.var s, .iri ref, .var object⟩] [] ∧
      ∀ d ∈ t.demands [⟨.var s, .iri ref, .var object⟩] [],
        d = .typed (.iri ref.iri.toInternal) type ∨ ∃ v found, d = .typed (.var v) found := by
  have hknown : (t.ontology.property? ref.iri.toInternal).isNone = false := by
    rw [Bool.eq_false_iff]
    intro hnone
    have hunknown : t.ontology.objectType ref.iri.toInternal = .ok none :=
      Ontology.inheritedConstraint_unknown (Option.isNone_iff_eq_none.1 hnone) _
    cases hunknown.symm.trans htype
  have hdemands : t.demands [⟨.var s, .iri ref, .var object⟩] [] =
      t.propertyDemands ref.iri.toInternal (some (.var s)) (some (.var object)) := by
    change t.statementDemands _ ++ [] ++ [] = _
    rw [List.append_nil, List.append_nil, statementDemands, isType_byProperty hname]
    rfl
  rw [hdemands]
  unfold propertyDemands
  rw [hknown, htype, if_neg (by simp)]
  cases hsubject : t.ontology.subjectType ref.iri.toInternal with
  | error fault => exact .inl ⟨_, List.mem_singleton_self _⟩
  | ok subjectType =>
    refine .inr ⟨List.mem_cons_self, ?_⟩
    cases subjectType with
    | none => simp [Demand.typed?, ask, Except.mapError]
    | some found => simp [Demand.typed?, ask, Except.mapError]

/-- The property has its object type, however few rounds there are. -/
theorem find?_byProperty (hname : ref.iri ≠ Rdf.type)
    (htype : t.ontology.objectType ref.iri.toInternal = .ok (some type)) {rounds : Nat}
    {found : Progress} (h : t.infer rounds (Group.byProperty s object ref) = .ok found) :
    found.types.find? (.iri ref.iri.toInternal) = some type := by
  have hrounds : 0 < max rounds 1 := Nat.le_max_right rounds 1
  cases demands_byProperty s object hname htype with
  | inl hrefused =>
    obtain ⟨fault, hfault⟩ := hrefused
    have hdemand :
        .refuse fault ∈ (Scope.mk [⟨.var s, .iri ref, .var object⟩] [] []).demands t := by
      rw [Scope.demands_mk]
      exact List.mem_append_left _ hfault
    exact (inferScope_reaches hrounds h _ hdemand).elim
  | inr hasked =>
    obtain ⟨htyped, hds⟩ := hasked
    refine @find?_of_only t [.iri ref.iri.toInternal] type _ _ ?_ ?_ _ List.mem_cons_self htyped _
      hrounds _ h
    · intro d hd
      obtain rfl | ⟨v, found, rfl⟩ := hds d hd
      · exact fun _ => rfl
      · exact fun hv => by simp at hv
    · rw [List.forall_mem_singleton]
      intro v hv
      cases hv

end Typist

section
variable {x : Expander} {s : Statement}

/-- What is known of a property variable decides whether it is matched by way of a value node. -/
theorem Expander.passage_variable {v : Variable} (hs : s.predicate = .var v) {shown : Iri}
    {isValue isLink : Bool}
    (hinfo : x.types.find? (.var v) = some (.property shown isValue isLink)) :
    x.passage s = .ok .value ↔ isValue = true ∧ isLink = false := by
  have hget : x.types.get? (.var v) = some (.property shown isValue isLink) := hinfo
  unfold passage
  rw [hs]
  dsimp only
  rw [hget]
  cases isLink <;> cases isValue <;> simp

/-- The hierarchy decides whether a property is matched by way of a value node. -/
theorem Expander.passage_property {ref : IriRef} (hs : s.predicate = .iri ref)
    (hname : ref.iri ≠ Rdf.type) :
    x.passage s = .ok .value ↔
      x.ontology.isValueProperty ref.iri = true ∧ x.ontology.isLinkProperty ref.iri = false := by
  unfold passage
  rw [hs]
  dsimp only
  rw [if_neg hname]
  cases x.ontology.isLinkProperty ref.iri <;> cases x.ontology.isValueProperty ref.iri <;> simp

end

/-- **A property variable leads where the object type of its property says**: to values if that is a
value class or a datatype of values, and to resources if it is a class of resources. The property
itself leads where the hierarchy says. Where the two agree, a statement with the variable is matched
by way of a value node exactly if a statement with the property is. -/
theorem fixed_property_variable {o : Ontology} {rounds : Nat} (q : Query) {s p object : Variable}
    {ref : IriRef} {type : Iri} {types types' : Types} (hname : ref.iri ≠ Rdf.type)
    (htype : o.objectType ref.iri.toInternal = .ok (some type))
    (hkind : o.isValueClass type = true → (ValueKind.ofType? type).isSome = true)
    (h : { q with body := .byVariable s p object ref }.inferTypes o rounds = .ok types)
    (h' : { q with body := .byProperty s object ref }.inferTypes o rounds = .ok types') :
    let property := ref.iri.toInternal
    let isValue := o.isValueClass type || (ValueKind.ofType? type).isSome
    let isLink := o.isResourceClass type
    ∃ shown,
      types.find? (.var p) = some (.property shown isValue isLink) ∧
      types'.find? (.iri property) =
        some (.property shown (o.isValueProperty property) (o.isLinkProperty property)) ∧
      (Expander.passage ⟨o, types⟩ ⟨.var s, .var p, .var object⟩ = .ok .value ↔
        isValue = true ∧ isLink = false) ∧
      (isValue = o.isValueProperty property → isLink = o.isLinkProperty property →
        (Expander.passage ⟨o, types⟩ ⟨.var s, .var p, .var object⟩ = .ok .value ↔
          Expander.passage ⟨o, types'⟩ (Statement.flatten ⟨.var s, .iri ref, .var object⟩) =
            .ok .value)) := by
  intro property isValue isLink
  have hisValue : isValue = (ValueKind.ofType? type).isSome := by
    cases hclass : o.isValueClass type with
    | false => exact congrArg (· || _) hclass
    | true => exact (congrArg (· || _) hclass).trans (hkind hclass).symm
  have hvar : types.find? (.var p) = some (.property (Typist.shownType ⟨o, q.schema⟩ type) isValue
      isLink) := by
    have hmentioned : (.var p, true) ∈ Roles.ofStatement ⟨.var s, .var p, .var object⟩ :=
      List.mem_cons_of_mem _ List.mem_cons_self
    rw [Query.find?_of_predicate h List.mem_cons_self hmentioned fun _ =>
      Typist.find?_byVariable htype, hisValue]
    rfl
  have hproperty : types'.find? (.iri property) =
      some (.property (Typist.shownType ⟨o, q.schema⟩ type) (o.isValueProperty property)
        (o.isLinkProperty property)) := by
    have hmentioned :
        (.iri property, true) ∈ Roles.ofStatement ⟨.var s, .iri ref, .var object⟩ := by
      rw [Roles.ofStatement, Typist.isType_byProperty hname]
      exact List.mem_cons_of_mem _ List.mem_cons_self
    exact Query.find?_of_predicate h' List.mem_cons_self hmentioned fun _ =>
      Typist.find?_byProperty hname htype
  have hpassage : Expander.passage ⟨o, types⟩ ⟨.var s, .var p, .var object⟩ = .ok .value ↔
      isValue = true ∧ isLink = false := Expander.passage_variable rfl hvar
  refine ⟨_, hvar, hproperty, hpassage, ?_⟩
  intro hvalue hlink
  have hpassage' := Expander.passage_property (x := ⟨o, types'⟩)
    (s := Statement.flatten ⟨.var s, .iri ref, .var object⟩) rfl
    (fun h => hname (Iri.toInternal_eq_type.1 h))
  rw [hpassage, hpassage', hvalue, hlink]
  rfl

/-- A variable that stands for the property of names leads to values, as the property does. -/
theorem fixed_property_variable_name :
    let q : Query := { schema := .simple, template := [], body := [] }
    let ref := IriRef.of "http://0.0.0.0:3333/ontology/0001/house/simple/v2#hasName"
    ∃ o types types', Ontology.build namedPages = .ok o ∧
      o.objectType ref.iri.toInternal = .ok (some Base.textValue) ∧
      { q with body := .byVariable ⟨"s"⟩ ⟨"p"⟩ ⟨"o"⟩ ref }.inferTypes o 32 = .ok types ∧
      { q with body := .byProperty ⟨"s"⟩ ⟨"o"⟩ ref }.inferTypes o 32 = .ok types' ∧
      Expander.passage ⟨o, types⟩ ⟨.var ⟨"s"⟩, .var ⟨"p"⟩, .var ⟨"o"⟩⟩ = .ok .value ∧
      Expander.passage ⟨o, types'⟩ (Statement.flatten ⟨.var ⟨"s"⟩, .iri ref, .var ⟨"o"⟩⟩) =
        .ok .value := by
  intro q ref
  have hrun : ((Ontology.build namedPages).toOption.map fun o => decide (
      (o.objectType ref.iri.toInternal).toOption = some (some Base.textValue) ∧
      o.isValueProperty ref.iri.toInternal = true ∧ o.isLinkProperty ref.iri.toInternal = false ∧
      o.isValueClass Base.textValue = true ∧ o.isResourceClass Base.textValue = false ∧
      ({ q with body := .byVariable ⟨"s"⟩ ⟨"p"⟩ ⟨"o"⟩ ref }.inferTypes o 32).toOption.isSome =
        true ∧
      ({ q with body := .byProperty ⟨"s"⟩ ⟨"o"⟩ ref }.inferTypes o 32).toOption.isSome = true)) =
        some true := by decide +kernel
  obtain ⟨o, hbuild, htype, hvalue, hlink, hclass, hresource, hvar, hproperty⟩ :=
    Ontology.exists_built hrun
  obtain ⟨types, htypes⟩ := Option.isSome_iff_exists.1 hvar
  obtain ⟨types', htypes'⟩ := Option.isSome_iff_exists.1 hproperty
  have htype := eq_ok_of_toOption htype
  have htypes := eq_ok_of_toOption htypes
  have htypes' := eq_ok_of_toOption htypes'
  obtain ⟨_, _, _, hpassage, hagree⟩ :=
    fixed_property_variable q (by decide) htype (fun _ => by decide) htypes htypes'
  have hnode := hpassage.2 ⟨by rw [hclass]; rfl, hresource⟩
  refine ⟨o, types, types', hbuild, htype, htypes, htypes', hnode, (hagree ?_ ?_).1 hnode⟩
  · rw [hclass, hvalue]
    rfl
  · rw [hresource, hlink]

/-- **A variable that stands for the content of integers leads to values**, and the property does
not. -/
theorem content_variable_leads_to_value :
    let q : Query := { schema := .internal, template := [], body := [] }
    let ref := IriRef.of Base.valueHasInteger
    ∃ o types types', Ontology.build {} = .ok o ∧
      { q with body := .byVariable ⟨"s"⟩ ⟨"p"⟩ ⟨"o"⟩ ref }.inferTypes o 32 = .ok types ∧
      { q with body := .byProperty ⟨"s"⟩ ⟨"o"⟩ ref }.inferTypes o 32 = .ok types' ∧
      types.find? (.var ⟨"p"⟩) = some (.property Xsd.integer true false) ∧
      types'.find? (.iri Base.valueHasInteger) = some (.property Xsd.integer false false) := by
  intro q ref
  have hrun : ((Ontology.build {}).toOption.map fun o => decide (
      (Query.inferTypes { q with body := .byVariable ⟨"s"⟩ ⟨"p"⟩ ⟨"o"⟩ ref } o 32).toOption.map
        (·.find? (.var ⟨"p"⟩)) = some (some (.property Xsd.integer true false)) ∧
      (Query.inferTypes { q with body := .byProperty ⟨"s"⟩ ⟨"o"⟩ ref } o 32).toOption.map
        (·.find? (.iri Base.valueHasInteger)) = some (some (.property Xsd.integer false false)))) =
        some true := by decide +kernel
  obtain ⟨o, hbuild, hvar, hproperty⟩ := Ontology.exists_built hrun
  obtain ⟨types, htypes, hfind⟩ := Option.map_eq_some_iff.1 hvar
  obtain ⟨types', htypes', hfind'⟩ := Option.map_eq_some_iff.1 hproperty
  exact ⟨o, types, types', hbuild, eq_ok_of_toOption htypes, eq_ok_of_toOption htypes',
    hfind, hfind'⟩

end OntoQuery
