import OntoQuery.Proofs.MostSpecific
import OntoQuery.Proofs.OrderFree
import OntoQuery.Proofs.StoredForm

/-!
# The types of values

A statement with a value property is matched by way of a value node, and how its content is read
depends on the type of the object. Here it is proved that inference leaves no such object without a
type (`value_objects_typed`), however deep in unions the statement stands and however few rounds
there are: the first round of each scope imposes all its demands (`Typist.inferScope_reaches`),
types are only refined after that, and what a branch has found comes back to the scopes around it.
-/

namespace OntoQuery

/-! ## Demands that have been imposed -/

/-- The demand has been imposed: it could be met, and the entity that it types has a type. -/
def Demand.Imposed (types : TypeMap) : Demand → Prop
  | .refuse _ => False
  | .typed e _ => types.contains e = true
  | .same _ _ => True
  | .follow _ _ => True

theorem Demand.Imposed.refine {o : Ontology} {types types' : TypeMap} {d : Demand}
    (h : d.Imposed types) (hrefines : types.Refines o types') : d.Imposed types' := by
  cases d with
  | refuse fault => exact h
  | typed e type =>
    obtain ⟨found, hfound⟩ := Option.isSome_iff_exists.1 h
    obtain ⟨found', hfound', _⟩ := hrefines e found hfound
    exact Option.isSome_iff_exists.2 ⟨found', hfound'⟩
  | same v w => trivial
  | follow v object => trivial

namespace Typist
variable {t : Typist}

theorem imposed_of_impose {d : Demand} {types types' : TypeMap} {changed : Bool}
    (h : t.impose d types = .ok (types', changed)) : d.Imposed types' := by
  cases d with
  | refuse fault => cases h
  | typed e type =>
    change types'.contains e = true
    cases assign_ok h with
    | inl hkept =>
      obtain ⟨_, rfl, found, hfound, _⟩ := hkept
      exact Option.isSome_iff_exists.2 ⟨found, hfound⟩
    | inr hgiven =>
      obtain ⟨_, rfl, _⟩ := hgiven
      simp [OrderedMap.contains]
  | same v w => trivial
  | follow v object => trivial

theorem imposed_of_imposeAll {ds : List Demand} {types types' : TypeMap} {changed : Bool}
    (h : t.imposeAll ds types = .ok (types', changed)) : ∀ d ∈ ds, d.Imposed types' := by
  induction ds generalizing types changed with
  | nil => simp
  | cons d ds ih =>
    obtain ⟨middle, _, _, hfirst, hrest, _⟩ := Rule.andThen_ok h
    rw [List.forall_mem_cons]
    constructor
    · exact (imposed_of_impose hfirst).refine ((t.imposeAll_refines ds).refines hrest)
    · exact ih hrest

theorem imposed_of_settle {ds : List Demand} {rounds : Nat} (hrounds : 0 < rounds) {p p' : Progress}
    {changed : Bool} (h : Pass.settle (t.imposeAll ds) rounds p = .ok (p', changed)) :
    ∀ d ∈ ds, d.Imposed p'.types := by
  cases rounds with
  | zero => omega
  | succ rounds =>
    intro d hd
    cases Pass.settle_succ_ok h with
    | inl hstill => exact imposed_of_imposeAll (Pass.ofRule_ok hstill.2) d hd
    | inr hmoved =>
      obtain ⟨_, middle, _, hfirst, hrest⟩ := hmoved
      have hrefines := (Pass.settle_faithful (t.imposeAll_refines ds) rounds).refines hrest
      exact (imposed_of_imposeAll (Pass.ofRule_ok hfirst) d hd).refine hrefines

end Typist

/-! ## What comes back from branches -/

/-- Each branch is inferred from the seed, and what it finds is in the seed or is gathered. -/
theorem TypeMap.branch_of_gather {schema : Schema} {seed merged : TypeMap} {exhausted : Bool}
    {infers : List Inferrer} {made : TypeMap × Bool}
    (h : gather schema seed infers merged exhausted = .ok made) :
    (∀ e type, merged.find? e = some type → made.1.find? e = some type) ∧
    ∀ infer ∈ infers, ∃ start p, infer { types := seed, exhausted := start } = .ok p ∧
      ∀ e type, p.types.find? e = some type →
        seed.find? e = some type ∨ made.1.find? e = some type := by
  induction infers generalizing merged exhausted with
  | nil =>
    cases h
    exact ⟨fun _ _ he => he, by simp⟩
  | cons infer infers ih =>
    obtain ⟨p, hp, h⟩ := bind_eq_ok.1 h
    obtain ⟨next, hnext, h⟩ := bind_eq_ok.1 h
    obtain ⟨hstays, hrest⟩ := ih h
    obtain ⟨hkept, hbrings⟩ := mergeBranch_ok (mapError_eq_ok.1 hnext)
    constructor
    · exact fun e type he => hstays e type (hkept e type he)
    · rw [List.forall_mem_cons]
      refine ⟨⟨exhausted, p, hp, ?_⟩, hrest⟩
      intro e type he
      exact (hbrings e type (mem_entries_of_find? he)).imp id (hstays e type)

namespace Pass
variable {o : Ontology}

/-- A demand that a branch imposes is imposed when its union is merged. -/
theorem imposed_of_union {schema : Schema} {infers : List Inferrer} {infer : Inferrer}
    (hinfer : infer ∈ infers) {d : Demand} (hd : ∀ q q', infer q = .ok q' → d.Imposed q'.types)
    {p p' : Progress} {changed : Bool} (h : union schema infers p = .ok (p', changed)) :
    d.Imposed p'.types := by
  obtain ⟨⟨merged, exhausted⟩, hgather, h⟩ := bind_eq_ok.1 h
  have htypes : (p.types.absorb merged).1 = p'.types := congrArg (·.1.types) (pure_eq_ok.1 h)
  obtain ⟨start, q, hq, hfound⟩ := (TypeMap.branch_of_gather hgather).2 infer hinfer
  have hbranch := hd _ _ hq
  cases d with
  | refuse fault => exact hbranch
  | typed e type =>
    obtain ⟨found, he⟩ := Option.isSome_iff_exists.1 hbranch
    change p'.types.contains e = true
    rw [← htypes, OrderedMap.contains, TypeMap.find?_absorb]
    cases hfound e found he with
    | inl hseed => simp [hseed]
    | inr hmerged =>
      change merged.find? e = some found at hmerged
      simp [hmerged]
  | same v w => trivial
  | follow v object => trivial

/-- Of steps in turn, each has its turn, and the types are refined after it. -/
theorem Faithful.all_ok {as : List Pass} (has : ∀ a ∈ as, a.Faithful o) {p p' : Progress}
    {changed : Bool} (h : Pass.all as p = .ok (p', changed)) :
    ∀ a ∈ as, ∃ q q' moved, a q = .ok (q', moved) ∧ q'.types.Refines o p'.types := by
  induction as generalizing p changed with
  | nil => simp
  | cons a as ih =>
    have hrest : ∀ b ∈ as, b.Faithful o := fun b hb => has b (List.mem_cons_of_mem _ hb)
    obtain ⟨middle, first, second, hfirst, hsecond, _⟩ := andThen_ok h
    rw [List.forall_mem_cons]
    constructor
    · exact ⟨p, middle, first, hfirst, (Faithful.all hrest).refines hsecond⟩
    · exact ih hrest hsecond

/-- A repetition takes its first step whatever comes then, and the types are refined after it. -/
theorem Faithful.iterate_first {a : Pass} (ha : a.Faithful o) {rounds : Nat} (hrounds : 0 < rounds)
    {p p' : Progress} (h : iterate a rounds p = .ok p') :
    ∃ middle changed, a p = .ok (middle, changed) ∧ middle.types.Refines o p'.types := by
  cases rounds with
  | zero => omega
  | succ rounds =>
    obtain ⟨⟨middle, changed⟩, hfirst, h⟩ := bind_eq_ok.1 h
    refine ⟨middle, changed, hfirst, ?_⟩
    dsimp only at h
    split at h
    · exact ha.iterate_refines h
    · cases pure_eq_ok.1 h
      exact .refl _

end Pass

namespace Typist
variable {t : Typist} {rounds : Nat}

/-- **Inference of a scope imposes all its demands**, also those inside unions, however few rounds
there are. -/
theorem inferScope_reaches (hrounds : 0 < rounds) {scope : Scope} {p p' : Progress}
    (h : t.inferScope rounds scope p = .ok p') : ∀ d ∈ scope.demands t, d.Imposed p'.types := by
  induction scope using Scope.by_unions generalizing p p' with
  | mk statements filters unions ih =>
    rw [inferScope_mk] at h
    have hunions := t.unions_faithful rounds unions
    have hround : (t.round rounds statements filters _).Faithful t.ontology :=
      round_faithful (Pass.Faithful.all hunions)
    obtain ⟨first, changed, hfirst, hrefines⟩ := hround.iterate_first hrounds h
    -- The rule by subject classes may come after the unions, and it only refines.
    have hturn : ∃ middle last moved moved', Pass.settle (Rule.all (statements.map t.statement ++
          filters.map t.filter)) rounds p = .ok (middle, moved) ∧
        Pass.all (unions.map fun branches => .union t.schema (branches.map (t.inferScope rounds)))
          middle = .ok (last, moved') ∧ last.types.Refines t.ontology p'.types := by
      cases t.round_ok rounds hfirst with
      | inl hmoved =>
        obtain ⟨middle, moved, moved', hsettle, hmerge, _⟩ := Pass.andThen_ok hmoved.2
        exact ⟨middle, first, moved, moved', hsettle, hmerge, hrefines⟩
      | inr hstill =>
        obtain ⟨last, hrun, hclasses⟩ := hstill
        obtain ⟨middle, moved, moved', hsettle, hmerge, _⟩ := Pass.andThen_ok hrun
        have hlast := (Pass.ofRule_faithful (t.classes_refine statements)).refines hclasses
        exact ⟨middle, last, moved, moved', hsettle, hmerge, hlast.trans hrefines⟩
    obtain ⟨middle, last, moved, moved', hsettle, hmerge, hlast⟩ := hturn
    intro d hd
    rw [Scope.demands_mk] at hd
    cases List.mem_append.1 hd with
    | inl hd =>
      rw [rules_eq] at hsettle
      have hmiddle := (Pass.Faithful.all hunions).refines hmerge
      exact ((imposed_of_settle hrounds hsettle d hd).refine hmiddle).refine hlast
    | inr hd =>
      obtain ⟨branches, hbranches, hd⟩ := List.mem_flatMap.1 hd
      obtain ⟨branch, hbranch, hd⟩ := List.mem_flatMap.1 hd
      obtain ⟨q, q', _, hunion, hafter⟩ :=
        Pass.Faithful.all_ok hunions hmerge _ (List.mem_map_of_mem hbranches)
      have himposed := Pass.imposed_of_union (List.mem_map_of_mem hbranch)
        (fun _ _ hrun => ih branches hbranches branch hbranch hrun d hd) hunion
      exact (himposed.refine hafter).refine hlast

end Typist

/-- What a statement demands is demanded by the scope of its group, whatever it stands in. -/
theorem Scope.mem_demands_ofGroup (t : Typist) {g : Group} {s : Statement} (hs : s ∈ g.statements)
    {d : Demand} (hd : d ∈ t.statementDemands s) : d ∈ (ofGroup g).demands t := by
  induction g using Group.by_patterns with
  | nil => cases hs
  | statement s' ps ih =>
    rw [ofGroup, mem_demands_append, ofPattern, demands_mk]
    rw [Group.statements_statement] at hs
    cases hs with
    | head => exact .inl (by simpa [Typist.demands] using hd)
    | tail _ hs => exact .inr (ih hs)
  | filter e ps ih =>
    rw [ofGroup, mem_demands_append]
    rw [Group.statements_filter] at hs
    exact .inr (ih hs)
  | optional g ps ihg ih =>
    rw [ofGroup, mem_demands_append, ofPattern]
    rw [Group.statements_optional, List.mem_append] at hs
    exact hs.imp ihg ih
  | minus g ps ihg ih =>
    rw [ofGroup, mem_demands_append, ofPattern]
    rw [Group.statements_minus, List.mem_append] at hs
    exact hs.imp ihg ih
  | union gs ps ihg ih =>
    rw [ofGroup, mem_demands_append, ofPattern, demands_mk, ofGroups_eq]
    rw [Group.statements_union, List.mem_append] at hs
    refine hs.imp (fun hs => ?_) ih
    obtain ⟨g, hg, hs⟩ := List.mem_flatMap.1 hs
    simp only [Typist.demands, List.flatMap_nil, List.nil_append, List.flatMap_cons,
      List.append_nil, List.flatMap_map, List.mem_flatMap]
    exact ⟨g, hg, ihg g hg hs⟩

/-! ## The objects of value statements -/

/-- The statement has a value property as its predicate, in any schema, and no literal as its
object. -/
def Statement.NamesValue (o : Ontology) (s : Statement) : Prop :=
  ∃ ref, s.predicate = .iri ref ∧ ref.iri ≠ Rdf.type ∧ o.isValueProperty ref.iri.toInternal = true ∧
    s.object.isLiteral = false

section
variable {o : Ontology} {s : Statement} (hs : s.NamesValue o)
include hs

theorem Statement.NamesValue.not_type : s.isType = false := by
  obtain ⟨ref, hpredicate, hnot, _⟩ := hs
  simpa [isType, hpredicate, Entity.isRdfType, Entity.isIri] using hnot

/-- The object of a statement that names a value can have a type, and is no predicate there. -/
theorem Statement.NamesValue.object_typeable :
    ∃ e, Typeable.ofEntity? s.object = some e ∧ (e, false) ∈ Roles.ofStatement s := by
  have htype := hs.not_type
  obtain ⟨_, _, _, _, hobject⟩ := hs
  have hsome : ∃ e, Typeable.ofEntity? s.object = some e := by
    cases hentity : s.object with
    | iri ref => exact ⟨_, rfl⟩
    | var v => exact ⟨_, rfl⟩
    | lit l =>
      rw [hentity] at hobject
      cases hobject
  obtain ⟨e, he⟩ := hsome
  exact ⟨e, he, by simp [Roles.ofStatement, htype, he]⟩

end

/-- Where all that a statement demands is imposed, the value that it names has a type. -/
theorem Typist.contains_of_namesValue {t : Typist} {defs : Definitions}
    (hbuild : Ontology.build defs = .ok t.ontology) {s : Statement} (hs : s.NamesValue t.ontology)
    {e : Typeable} (he : Typeable.ofEntity? s.object = some e) {types : TypeMap}
    (h : ∀ d ∈ t.statementDemands s, d.Imposed types) : types.contains e = true := by
  have htype := hs.not_type
  obtain ⟨ref, hpredicate, _, hvalue, _⟩ := hs
  have hproperty : Typeable.ofEntity? s.predicate = some (.iri ref.iri.toInternal) := by
    rw [hpredicate]
    rfl
  have hknown : (t.ontology.property? ref.iri.toInternal).isNone = false := by
    simp only [Ontology.isValueProperty, Bool.and_eq_true] at hvalue
    simpa using hvalue.1
  unfold statementDemands at h
  rw [if_neg (by simp [htype]), hproperty] at h
  dsimp only at h
  unfold propertyDemands at h
  rw [if_neg (by simp [hknown])] at h
  split at h
  · exact (h _ List.mem_cons_self).elim
  · exact (h _ List.mem_cons_self).elim
  · rename_i objectType subjectType hobjectType _
    cases objectType with
    | none => exact absurd (ask_ok hobjectType) (Ontology.objectType_ne_none hbuild hvalue)
    | some type =>
      rw [he] at h
      exact h (.typed e type) (by simp [Demand.typed?])

/-- An entity that stands elsewhere than as a predicate is described by its own type. -/
theorem Query.find?_of_contains {q : Query} {o : Ontology} {rounds : Nat} {types : Types}
    (h : q.inferTypes o rounds = .ok types) {s : Statement} (hs : s ∈ q.body.statements)
    {e : Typeable} (he : (e, false) ∈ Roles.ofStatement s)
    (htyped : ∀ p, Typist.infer ⟨o, q.schema⟩ rounds q.body = .ok p → p.types.contains e = true) :
    ∃ type, types.find? e = some (Typist.entityInfo ⟨o, q.schema⟩ type) := by
  obtain ⟨p, hp, hfind⟩ := find?_of_inferTypes h
  obtain ⟨type, htype⟩ := Option.isSome_iff_exists.1 (htyped p hp)
  have horder := Roles.mem_order_iff.2 ⟨s, hs, false, he⟩
  have hpredicate : e ∉ (Roles.ofGroup q.body).predicates := fun hmem =>
    (described_of_inferTypes h).1 e hmem (Roles.mem_others_iff.2 ⟨s, hs, he⟩)
  refine ⟨type, (hfind e _).2 ⟨horder, type, htype, ?_⟩⟩
  rw [Typist.info, if_neg hpredicate]

/-! ## Expansion -/

namespace Expander
variable {x : Expander} {u : Statement}

theorem get?_of_contentType? {e : Entity} (h : x.contentType? e = none) :
    x.types.get? e = none := by
  cases e with
  | lit l => cases h
  | iri ref => exact Option.map_eq_none_iff.1 h
  | var v => exact Option.map_eq_none_iff.1 h

/-- The way of a statement is found without regard to values. -/
theorem passage_ne_untyped {s : Statement} : x.passage s ≠ .error (.untypedValue u) := by
  intro h
  unfold passage at h
  split at h
  · split at h
    · cases h
    · split at h
      · cases h
      · split at h <;> cases h
  · split at h
    · split at h
      · cases h
      · split at h <;> cases h
    · cases h
  · cases h

theorem content_untyped {s : Statement} {node : Entity}
    (h : x.content s node = .error (.untypedValue u)) : x.contentType? u.object = none := by
  unfold content at h
  split at h
  · rename_i hnone
    cases h
    exact hnone
  · split at h
    · cases h
    · split at h <;> cases h

theorem expandValue_untyped {s : Statement} {n : Nat}
    (h : x.expandValue s n = .error (.untypedValue u)) : x.contentType? u.object = none := by
  unfold expandValue at h
  dsimp only at h
  split at h
  · cases h
  · exact content_untyped (error_of_bind h fun _ => rfl)

theorem expandLink_ne_untyped {s : Statement} {property : Iri} :
    x.expandLink s property ≠ .error (.untypedValue u) := by
  intro h
  unfold expandLink at h
  split at h
  · cases h
  · split at h <;> cases h

/-- Expansion blames a statement for an untyped value only if its object has no type. -/
theorem expandStatement_untyped {s : Statement} {n : Nat}
    (h : x.expandStatement s n = .error (.untypedValue u)) : x.contentType? u.object = none := by
  cases bind_eq_error.1 h with
  | inl hpassage => exact absurd hpassage passage_ne_untyped
  | inr h =>
    obtain ⟨way, _, h⟩ := h
    cases way with
    | direct => cases h
    | value => exact expandValue_untyped h
    | link property => exact absurd (error_of_bind h fun _ => rfl) expandLink_ne_untyped

theorem expandGroup_cons_error {p : Pattern} {ps : Group} {marked : List Variable} {n : Nat}
    {fault : Fault} (h : x.expandGroup (p :: ps) marked n = .error fault) :
    x.expandPattern p marked n = .error fault ∨
      ∃ marked' k, x.expandGroup ps marked' k = .error fault := by
  rw [expandGroup] at h
  cases bind_eq_error.1 h with
  | inl hfirst => exact .inl hfirst
  | inr h =>
    obtain ⟨⟨_, marked', k⟩, _, h⟩ := h
    exact .inr ⟨marked', k, error_of_bind h fun _ => rfl⟩

theorem expandGroups_error {gs : List Group} {marked : List Variable} {n : Nat} {fault : Fault}
    (h : x.expandGroups gs marked n = .error fault) :
    ∃ g ∈ gs, ∃ k, x.expandGroup g marked k = .error fault := by
  induction gs generalizing n with
  | nil => cases h
  | cons g gs ih =>
    rw [expandGroups] at h
    cases bind_eq_error.1 h with
    | inl hfirst => exact ⟨g, List.mem_cons_self, n, hfirst⟩
    | inr h =>
      obtain ⟨⟨_, k⟩, _, h⟩ := h
      obtain ⟨g', hg', found⟩ := ih (error_of_bind h fun _ => rfl)
      exact ⟨g', List.mem_cons_of_mem _ hg', found⟩

/-- What a pattern is blamed for is the fault of its statement, or of a group inside it. -/
theorem expandPattern_error {p : Pattern} {marked : List Variable} {n : Nat} {fault : Fault}
    (h : x.expandPattern p marked n = .error fault) :
    (∃ s, x.expandStatement s n = .error fault) ∨
      ∃ g k, p.Opens g ∧ x.expandGroup g marked k = .error fault := by
  cases p with
  | statement s =>
    rw [expandPattern] at h
    exact .inl ⟨s, error_of_bind h fun _ => rfl⟩
  | filter e => cases h
  | optional g =>
    rw [expandPattern] at h
    exact .inr ⟨g, n, .optional g, error_of_bind h fun _ => rfl⟩
  | minus g =>
    rw [expandPattern] at h
    exact .inr ⟨g, n, .minus g, error_of_bind h fun _ => rfl⟩
  | union gs =>
    rw [expandPattern] at h
    obtain ⟨g, hg, k, hrun⟩ := expandGroups_error (error_of_bind h fun _ => rfl)
    exact .inr ⟨g, k, .union hg, hrun⟩

theorem expandGroup_untyped {g : Group} {marked : List Variable} {n : Nat}
    (h : x.expandGroup g marked n = .error (.untypedValue u)) : x.contentType? u.object = none := by
  have step : ∀ {p : Pattern} {ps : Group} {marked : List Variable} {n : Nat},
      (∀ g, p.Opens g → ∀ {marked n}, x.expandGroup g marked n = .error (.untypedValue u) →
        x.contentType? u.object = none) →
      (∀ {marked n}, x.expandGroup ps marked n = .error (.untypedValue u) →
        x.contentType? u.object = none) →
      x.expandGroup (p :: ps) marked n = .error (.untypedValue u) →
        x.contentType? u.object = none := by
    intro p ps marked n inner rest h
    cases expandGroup_cons_error h with
    | inl hp =>
      cases expandPattern_error hp with
      | inl hs =>
        obtain ⟨s, hs⟩ := hs
        exact expandStatement_untyped hs
      | inr hg =>
        obtain ⟨g, k, hopens, hg⟩ := hg
        exact inner g hopens hg
    | inr hps =>
      obtain ⟨_, _, hps⟩ := hps
      exact rest hps
  induction g using Group.by_patterns generalizing marked n with
  | nil => cases h
  | statement s ps ih | filter e ps ih =>
    apply step _ ih h
    intro g hopens
    cases hopens
  | optional g ps ihg ih | minus g ps ihg ih =>
    apply step _ ih h
    intro g hopens
    cases hopens
    exact ihg
  | union gs ps ihg ih =>
    apply step _ ih h
    intro g hopens
    cases hopens with
    | union hg => exact ihg g hg

end Expander

/-- **The objects of value statements are typed.** If the entities of a query can be typed, with any
number of rounds, then every variable or IRI that a statement with a value property leads to has a
type of its own, wherever in the body the statement stands. So expansion of the body in its stored
form finds no value without a type in such a statement. -/
theorem value_objects_typed {defs : Definitions} {o : Ontology}
    (hbuild : Ontology.build defs = .ok o) {q : Query} {maxRounds : Nat} {types : Types}
    (h : q.inferTypes o maxRounds = .ok types) {s : Statement} (hs : s ∈ q.body.statements)
    (hvalue : s.NamesValue o) :
    (∃ type isResource isValue, types.get? s.object = some (.entity type isResource isValue)) ∧
      Expander.expand ⟨o, types⟩ q.body.flatten ≠ .error (.untypedValue s.flatten) := by
  obtain ⟨e, he, hplace⟩ := hvalue.object_typeable
  have hcontains : ∀ p, Typist.infer ⟨o, q.schema⟩ maxRounds q.body = .ok p →
      p.types.contains e = true := by
    intro p hp
    apply Typist.contains_of_namesValue (t := ⟨o, q.schema⟩) hbuild hvalue he
    intro d hd
    exact Typist.inferScope_reaches (by omega) hp d (Scope.mem_demands_ofGroup _ hs hd)
  obtain ⟨type, htype⟩ := Query.find?_of_contains h hs hplace hcontains
  have hget : types.get? s.object = some (Typist.entityInfo ⟨o, q.schema⟩ type) := by
    rw [Types.get?, he]
    exact htype
  refine ⟨⟨_, _, _, hget⟩, ?_⟩
  intro hexpand
  unfold Expander.expand at hexpand
  cases hrun : Expander.expandGroup ⟨o, types⟩ q.body.flatten [] 0 with
  | ok made =>
    rw [hrun] at hexpand
    cases hexpand
  | error fault =>
    rw [hrun] at hexpand
    cases hexpand
    have huntyped : types.get? s.object.flatten = none :=
      Expander.get?_of_contentType? (Expander.expandGroup_untyped hrun)
    have hsame : types.get? s.object.flatten = types.get? s.object := by
      simp only [Types.get?, Typeable.ofEntity?_flatten]
    cases huntyped.symm.trans (hsame.trans hget)

/-- A value that only an inner alternative leads to, by a property that inherits its constraint
twice over, with no rounds to spare. -/
theorem value_objects_typed_nested :
    let hasNote : Iri := "http://www.knora.org/ontology/0001/house#hasNote"
    let hasComment : Iri := "http://www.knora.org/ontology/0001/house#hasComment"
    let defs : Definitions :=
      { properties :=
        [⟨hasNote, [Base.hasValue], none, none⟩, ⟨hasComment, [hasNote], none, none⟩] }
    let asked : Statement := ⟨.var ⟨"r"⟩, .ofIri hasComment, .var ⟨"v"⟩⟩
    let link : Pattern := .triple (.var ⟨"r"⟩) (.ofIri Base.hasLinkTo) (.var ⟨"s"⟩)
    let q : Query :=
      { schema := .internal, template := [],
        body := [link, .union [[link], [.optional [.union [[.statement asked], []]]]]] }
    ∃ o types, Ontology.build defs = .ok o ∧ q.inferTypes o 0 = .ok types ∧
      asked ∈ q.body.statements ∧ asked.NamesValue o ∧
      (∃ type isResource isValue,
        types.get? asked.object = some (.entity type isResource isValue)) ∧
        Expander.expand ⟨o, types⟩ q.body.flatten ≠ .error (.untypedValue asked.flatten) := by
  intro hasNote hasComment defs asked link q
  have hrun : ((Ontology.build defs).toOption.map fun o => decide (
      (q.inferTypes o 0).isOk = true ∧ o.isValueProperty hasComment.toInternal = true)) =
      some true := by
    decide +kernel
  obtain ⟨o, hbuild, hok, hproperty⟩ := Ontology.exists_built hrun
  cases htypes : q.inferTypes o 0 with
  | error fault =>
    rw [htypes] at hok
    cases hok
  | ok types =>
    have hs : asked ∈ q.body.statements := by decide
    have hvalue : asked.NamesValue o := ⟨.of hasComment, rfl, by decide, hproperty, rfl⟩
    exact ⟨o, types, hbuild, htypes, hs, hvalue, value_objects_typed hbuild htypes hs hvalue⟩

end OntoQuery
