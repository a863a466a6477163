import Mathlib.Logic.Relation
import OntoQuery.Proofs.Steps
import OntoQuery.Typing.Inference

/-!
# What the rules demand

A rule of type inference comes to a list of demands, imposed one after the other: that an entity has
a type, that two variables have the same type, that a property variable has the type of its object
(`Typist.statement_eq`, `Typist.filter_eq`). So what is proved of a single demand holds of all
rules. A rule gives types and replaces them by more specific ones, and if it says that nothing
changed, then nothing has (`Rule.Refines`) and every demand is met as the types stand
(`Typist.met_of_impose`).
-/

namespace OntoQuery

/-! ## Rules in turn -/

namespace Rule

theorem idle_andThen (r : Rule) : idle.andThen r = r := by
  funext types
  cases h : r types <;> simp [idle, andThen, h, bind, Except.bind, pure, Except.pure]

theorem andThen_idle (r : Rule) : r.andThen idle = r := by
  funext types
  cases h : r types <;> simp [idle, andThen, h, bind, Except.bind, pure, Except.pure]

theorem andThen_assoc (a b c : Rule) : (a.andThen b).andThen c = a.andThen (b.andThen c) := by
  funext types
  cases ha : a types with
  | error fault => simp [andThen, ha, bind, Except.bind]
  | ok made =>
    cases hb : b made.1 with
    | error fault => simp [andThen, ha, hb, bind, Except.bind]
    | ok made' =>
      cases hc : c made'.1 <;>
        simp [andThen, ha, hb, hc, bind, Except.bind, pure, Except.pure, Bool.or_assoc]

theorem all_append (rs rs' : List Rule) : all (rs ++ rs') = (all rs).andThen (all rs') := by
  induction rs with
  | nil => exact (idle_andThen _).symm
  | cons r rs ih => rw [List.cons_append, all, all, ih, andThen_assoc]

theorem all_singleton (r : Rule) : all [r] = r :=
  andThen_idle r

theorem all_flatMap {α : Type} (f : α → List Rule) (as : List α) :
    all (as.flatMap f) = all (as.map fun a => all (f a)) := by
  induction as with
  | nil => rfl
  | cons a as ih => rw [List.flatMap_cons, all_append, ih, List.map_cons, all]

end Rule

/-! ## Demands -/

/-- Something that a rule demands of the types. -/
inductive Demand where
  /-- What cannot be met: the ontology has no answer. -/
  | refuse (fault : Fault)
  /-- The entity has the type. -/
  | typed (e : Typeable) (type : Iri)
  /-- The variables have the same type. -/
  | same (v w : Variable)
  /-- The property variable has the type of its object. -/
  | follow (v : Variable) (object : Entity)

/-- The entity has the type, if there are both. -/
def Demand.typed? : Option Typeable → Option Iri → List Demand
  | some e, some type => [.typed e type]
  | _, _ => []

namespace Typist

/-- The demand as a rule. -/
def impose (t : Typist) : Demand → Rule
  | .refuse fault => fun _ => .error fault
  | .typed e type => t.assign e type
  | .same v w => Rule.andThen (t.share (.var v) (some (.var w))) (t.share (.var w) (some (.var v)))
  | .follow v object => t.propertyVariable v object

/-- What a property demands of itself, its subject and its object. -/
def propertyDemands (t : Typist) (p : Iri) (subject object : Option Typeable) : List Demand :=
  if (t.ontology.property? p).isNone then []
  else
    match ask (.iri p) (t.ontology.objectType p), ask (.iri p) (t.ontology.subjectType p) with
    | .error fault, _ => [.refuse fault]
    | .ok _, .error fault => [.refuse fault]
    | .ok objectType, .ok subjectType =>
      Demand.typed? (some (.iri p)) objectType ++
        (Demand.typed? object objectType ++ Demand.typed? subject subjectType)

def statementDemands (t : Typist) (s : Statement) : List Demand :=
  if s.isType then
    match s.object with
    | .iri ref => Demand.typed? (Typeable.ofEntity? s.subject) (some ref.iri.toInternal)
    | _ => []
  else
    match Typeable.ofEntity? s.predicate with
    | some (.iri p) =>
      t.propertyDemands p (Typeable.ofEntity? s.subject) (Typeable.ofEntity? s.object)
    | some (.var v) => [.follow v s.object]
    | none => []

def comparisonDemands (t : Typist) (op : Comparison) : Entity → Entity → List Demand
  | .var v, .lit l | .lit l, .var v => [.typed (.var v) l.datatype]
  | .var v, .var w => if op = .eq then [.same v w] else []
  | .var v, .iri ref | .iri ref, .var v =>
    if op = .eq then
      match ask (.var v) (t.ontology.objectType ref.iri.toInternal) with
      | .error fault => [.refuse fault]
      | .ok objectType => Demand.typed? (some (.var v)) objectType
    else []
  | _, _ => []

def filterDemands (t : Typist) : Expression → List Demand
  | .and left right => t.filterDemands left ++ t.filterDemands right
  | .or left right => t.filterDemands left ++ t.filterDemands right
  | .not inner => t.filterDemands inner
  | .compare (.entity a) op (.entity b) => t.comparisonDemands op a b
  | .call .regex (e :: _) => Demand.typed? (textArgument? e) (some Xsd.string)
  | .call .lang (e :: _) => Demand.typed? (textArgument? e) (some Xsd.string)
  | .call .langMatches (e :: _) => t.filterDemands e
  | _ => []

/-- The demands in turn. -/
def imposeAll (t : Typist) (ds : List Demand) : Rule :=
  Rule.all (ds.map t.impose)

variable (t : Typist)

theorem imposeAll_append (ds ds' : List Demand) :
    t.imposeAll (ds ++ ds') = (t.imposeAll ds).andThen (t.imposeAll ds') := by
  rw [imposeAll, List.map_append, Rule.all_append, imposeAll, imposeAll]

theorem imposeAll_typed? (e : Option Typeable) (type : Option Iri) :
    t.imposeAll (Demand.typed? e type) = t.assign? e type := by
  cases e with
  | none => rfl
  | some e =>
    cases type with
    | none => rfl
    | some type => exact Rule.all_singleton _

theorem property_eq (p : Iri) (subject object : Option Typeable) :
    t.property p subject object = t.imposeAll (t.propertyDemands p subject object) := by
  funext types
  unfold property propertyDemands
  split
  · rfl
  · cases ask (.iri p) (t.ontology.objectType p) with
    | error fault => rfl
    | ok objectType =>
      cases ask (.iri p) (t.ontology.subjectType p) with
      | error fault => rfl
      | ok subjectType =>
        simp only [imposeAll_append, imposeAll_typed?]
        change Rule.all [_, _, _] types = _
        simp only [Rule.all, Rule.andThen_idle]

/-- **The rule of a statement imposes what the statement demands.** -/
theorem statement_eq (s : Statement) : t.statement s = t.imposeAll (t.statementDemands s) := by
  unfold statement statementDemands
  dsimp only
  split
  · cases s.object with
    | iri ref => exact (t.imposeAll_typed? _ _).symm
    | var v => rfl
    | lit l => rfl
  · cases Typeable.ofEntity? s.predicate with
    | none => rfl
    | some e =>
      cases e with
      | iri p => exact t.property_eq _ _ _
      | var v => exact (Rule.all_singleton _).symm

theorem comparison_eq (op : Comparison) (a b : Entity) :
    t.comparison op a b = t.imposeAll (t.comparisonDemands op a b) := by
  have asked : ∀ (v : Variable) (ref : IriRef),
      (fun types => do
        let objectType ← ask (.var v) (t.ontology.objectType ref.iri.toInternal)
        t.assign? (some (.var v)) objectType types : Rule) =
      t.imposeAll (match ask (.var v) (t.ontology.objectType ref.iri.toInternal) with
        | .error fault => [.refuse fault]
        | .ok objectType => Demand.typed? (some (.var v)) objectType) := by
    intro v ref
    funext types
    cases ask (.var v) (t.ontology.objectType ref.iri.toInternal) with
    | error fault => rfl
    | ok objectType =>
      simp only [imposeAll_typed?]
      rfl
  have onlyIf : ∀ (r : Rule) (ds : List Demand), r = t.imposeAll ds →
      (if op = .eq then r else .idle) = t.imposeAll (if op = .eq then ds else []) := by
    intro r ds h
    split
    · exact h
    · rfl
  have single : ∀ d, t.impose d = t.imposeAll [d] := fun _ => (Rule.all_singleton _).symm
  cases a with
  | var v =>
    cases b with
    | var w => exact onlyIf _ _ (single (.same v w))
    | iri ref => exact onlyIf _ _ (asked v ref)
    | lit l => exact single (.typed (.var v) l.datatype)
  | iri ref =>
    cases b with
    | var v => exact onlyIf _ _ (asked v ref)
    | iri ref' => rfl
    | lit l => rfl
  | lit l =>
    cases b with
    | var v => exact single (.typed (.var v) l.datatype)
    | iri ref => rfl
    | lit l' => rfl

/-- **The rule of a filter imposes what the filter demands.** -/
theorem filter_eq : ∀ e : Expression, t.filter e = t.imposeAll (t.filterDemands e)
  | .entity _ => rfl
  | .compare left op right => by
    cases left with
    | entity a =>
      cases right with
      | entity b => exact t.comparison_eq op a b
      | _ => rfl
    | _ => rfl
  | .and left right => by
    rw [filter, filter_eq left, filter_eq right, filterDemands, imposeAll_append]
  | .or left right => by
    rw [filter, filter_eq left, filter_eq right, filterDemands, imposeAll_append]
  | .not inner => by rw [filter, filter_eq inner, filterDemands]
  | .call .regex [] | .call .lang [] | .call .langMatches [] => rfl
  | .call .regex (_ :: _) | .call .lang (_ :: _) => (t.imposeAll_typed? _ _).symm
  | .call .langMatches (e :: _) => by rw [filter, filter_eq e, filterDemands]
  | .call .str _ | .call .bound _ => rfl

/-- What the statements and filters of a scope demand. -/
def demands (t : Typist) (statements : List Statement) (filters : List Expression) : List Demand :=
  statements.flatMap t.statementDemands ++ filters.flatMap t.filterDemands

/-- The rules of a scope impose what its statements and filters demand. -/
theorem rules_eq (statements : List Statement) (filters : List Expression) :
    Rule.all (statements.map t.statement ++ filters.map t.filter) =
      t.imposeAll (t.demands statements filters) := by
  have flat : ∀ {α : Type} (f : α → List Demand) (as : List α),
      Rule.all (as.map fun a => t.imposeAll (f a)) = t.imposeAll (as.flatMap f) := by
    intro α f as
    rw [imposeAll, List.map_flatMap, Rule.all_flatMap]
    rfl
  rw [Rule.all_append, demands, imposeAll_append, ← flat, ← flat, funext t.statement_eq,
    funext t.filter_eq]

end Typist

/-! ## What a rule does to the types -/

/-- One type comes from another by replacements. -/
def Ontology.Refines (o : Ontology) : Iri → Iri → Prop :=
  Relation.ReflTransGen fun current candidate => o.refine current candidate = .replace

namespace TypeMap

/-- The entity has a type that stays as it is when the candidate comes to it. -/
def Keeps (o : Ontology) (types : TypeMap) (e : Typeable) (candidate : Iri) : Prop :=
  ∃ type, types.find? e = some type ∧ o.refine type candidate = .keep

/-- Every entity that has a type has one after, the same or a refined one. -/
def Refines (o : Ontology) (types types' : TypeMap) : Prop :=
  ∀ e type, types.find? e = some type → ∃ type', types'.find? e = some type' ∧ o.Refines type type'

variable {o : Ontology} {types types' types'' : TypeMap}

theorem Refines.refl (types : TypeMap) : Refines o types types :=
  fun _ type h => ⟨type, h, .refl⟩

theorem Refines.trans (h : Refines o types types') (h' : Refines o types' types'') :
    Refines o types types'' := by
  intro e type he
  obtain ⟨type', he', hr⟩ := h e type he
  obtain ⟨type'', he'', hr'⟩ := h' e type' he'
  exact ⟨type'', he'', hr.trans hr'⟩

/-- An entity gets its first type, or one that replaces its type. -/
theorem Refines.insert {e : Typeable} {type : Iri}
    (h : ∀ current, types.find? e = some current → o.refine current type = .replace) :
    Refines o types (types.insert e type) := by
  intro e' current he'
  rw [OrderedMap.find?_insert]
  split
  · rename_i heq
    subst heq
    exact ⟨type, rfl, .single (h current he')⟩
  · exact ⟨current, he', .refl⟩

end TypeMap

/-- The rule refines the types, and tells the truth when it says that nothing changed. -/
structure Rule.Refines (o : Ontology) (r : Rule) : Prop where
  refines : ∀ {types types' changed}, r types = .ok (types', changed) → types.Refines o types'
  unchanged : ∀ {types types'}, r types = .ok (types', false) → types' = types

namespace Rule
variable {o : Ontology}

theorem idle_refines : idle.Refines o where
  refines h := by
    cases h
    exact .refl _
  unchanged h := by
    cases h
    rfl

theorem andThen_ok {a b : Rule} {types types' : TypeMap} {changed : Bool}
    (h : a.andThen b types = .ok (types', changed)) :
    ∃ middle first second, a types = .ok (middle, first) ∧ b middle = .ok (types', second) ∧
      changed = (first || second) := by
  obtain ⟨⟨middle, first⟩, hfirst, h⟩ := bind_eq_ok.1 h
  obtain ⟨⟨last, second⟩, hsecond, h⟩ := bind_eq_ok.1 h
  cases pure_eq_ok.1 h
  exact ⟨middle, first, second, hfirst, hsecond, rfl⟩

theorem andThen_eq_ok {a b : Rule} {types middle last : TypeMap} {changed changed' : Bool}
    (ha : a types = .ok (middle, changed)) (hb : b middle = .ok (last, changed')) :
    a.andThen b types = .ok (last, changed || changed') := by
  rw [andThen, ha]
  change (b middle >>= fun made => _) = _
  rw [hb]
  rfl

/-- Where two rules in turn change nothing, each by itself changes nothing. -/
theorem Refines.andThen_unchanged {a b : Rule} (ha : a.Refines o) (hb : b.Refines o)
    {types types' : TypeMap} (h : a.andThen b types = .ok (types', false)) :
    types' = types ∧ a types = .ok (types, false) ∧ b types = .ok (types, false) := by
  obtain ⟨middle, first, second, hfirst, hsecond, hor⟩ := andThen_ok h
  obtain ⟨rfl, rfl⟩ : first = false ∧ second = false := by simpa using hor.symm
  obtain rfl := ha.unchanged hfirst
  obtain rfl := hb.unchanged hsecond
  exact ⟨rfl, hfirst, hsecond⟩

theorem Refines.andThen {a b : Rule} (ha : a.Refines o) (hb : b.Refines o) :
    (a.andThen b).Refines o where
  refines h := by
    obtain ⟨middle, first, second, hfirst, hsecond, _⟩ := andThen_ok h
    exact (ha.refines hfirst).trans (hb.refines hsecond)
  unchanged h := (ha.andThen_unchanged hb h).1

theorem Refines.all {rs : List Rule} (h : ∀ r ∈ rs, r.Refines o) : (all rs).Refines o := by
  induction rs with
  | nil => exact idle_refines
  | cons r rs ih =>
    exact (h r List.mem_cons_self).andThen (ih fun r' hr' => h r' (List.mem_cons_of_mem _ hr'))

/-- Where rules in turn change nothing, each rule changes nothing. -/
theorem Refines.all_unchanged {rs : List Rule} (h : ∀ r ∈ rs, r.Refines o) {types types' : TypeMap}
    (hrun : Rule.all rs types = .ok (types', false)) : ∀ r ∈ rs, r types = .ok (types, false) := by
  induction rs generalizing types' with
  | nil => simp
  | cons r rs ih =>
    have hrest : ∀ r' ∈ rs, r'.Refines o := fun r' hr' => h r' (List.mem_cons_of_mem _ hr')
    obtain ⟨rfl, hfirst, hsecond⟩ :=
      (h r List.mem_cons_self).andThen_unchanged (Refines.all hrest) hrun
    exact List.forall_mem_cons.2 ⟨hfirst, ih hrest hsecond⟩

end Rule

/-- The types are as the demand wants them. -/
def Demand.Met (o : Ontology) (types : TypeMap) : Demand → Prop
  | .refuse _ => False
  | .typed e type => types.Keeps o e type
  | .same v w =>
    (∀ type, types.find? (.var v) = some type → types.Keeps o (.var w) type) ∧
      ∀ type, types.find? (.var w) = some type → types.Keeps o (.var v) type
  | .follow v object =>
    (∀ type, types.find? (.var v) = some type →
      ∀ e, Typeable.ofEntity? object = some e → types.Keeps o e type) ∧
    (types.find? (.var v) = none → object.isLiteral = false ∧
      ∀ e, Typeable.ofEntity? object = some e → types.find? e = none)

namespace Typist
variable (t : Typist)

/-- What giving a type does. -/
theorem assign_ok {t : Typist} {e : Typeable} {type : Iri} {types types' : TypeMap} {changed : Bool}
    (h : t.assign e type types = .ok (types', changed)) :
    (changed = false ∧ types' = types ∧ types.Keeps t.ontology e type) ∨
    changed = true ∧ types' = types.insert e type ∧
      ∀ current, types.find? e = some current → t.ontology.refine current type = .replace := by
  unfold assign at h
  split at h
  · rename_i hnone
    cases h
    exact .inr ⟨rfl, rfl, by simp [hnone]⟩
  · rename_i current hcurrent
    split at h
    · rename_i hkeep
      cases h
      exact .inl ⟨rfl, rfl, current, hcurrent, hkeep⟩
    · rename_i hreplace
      cases h
      refine .inr ⟨rfl, rfl, ?_⟩
      rintro _ hcurrent'
      cases hcurrent.symm.trans hcurrent'
      exact hreplace
    · cases h

theorem assign_refines (e : Typeable) (type : Iri) : (t.assign e type).Refines t.ontology where
  refines h := by
    rcases assign_ok h with ⟨_, rfl, _⟩ | ⟨_, rfl, hreplace⟩
    · exact .refl _
    · exact .insert hreplace
  unchanged h := by
    rcases assign_ok h with ⟨_, rfl, _⟩ | ⟨hchanged, _⟩
    · rfl
    · cases hchanged

theorem keeps_of_assign {t : Typist} {e : Typeable} {type : Iri} {types types' : TypeMap}
    (h : t.assign e type types = .ok (types', false)) : types.Keeps t.ontology e type := by
  rcases assign_ok h with ⟨_, _, hkeeps⟩ | ⟨hchanged, _⟩
  · exact hkeeps
  · cases hchanged

theorem assign?_refines (e : Option Typeable) (type : Option Iri) :
    (t.assign? e type).Refines t.ontology := by
  cases e with
  | none => exact Rule.idle_refines
  | some e =>
    cases type with
    | none => exact Rule.idle_refines
    | some type => exact t.assign_refines e type

theorem share_refines (a : Typeable) (b : Option Typeable) : (t.share a b).Refines t.ontology where
  refines h := (t.assign?_refines b _).refines h
  unchanged h := (t.assign?_refines b _).unchanged h

theorem keeps_of_share {t : Typist} {a b : Typeable} {types types' : TypeMap}
    (h : t.share a (some b) types = .ok (types', false)) {type : Iri}
    (ha : types.find? a = some type) : types.Keeps t.ontology b type := by
  unfold share at h
  rw [ha] at h
  exact keeps_of_assign h

theorem propertyVariable_refines (v : Variable) (object : Entity) :
    (t.propertyVariable v object).Refines t.ontology := by
  have like : ∀ types, ∃ r : Rule, r.Refines t.ontology ∧
      t.propertyVariable v object types = r types := by
    intro types
    unfold propertyVariable
    cases types.find? (.var v) with
    | some type => exact ⟨_, t.assign?_refines _ _, rfl⟩
    | none =>
      cases object with
      | lit l => exact ⟨_, t.assign_refines _ _, rfl⟩
      | var u => exact ⟨_, t.share_refines _ _, rfl⟩
      | iri ref => exact ⟨_, t.share_refines _ _, rfl⟩
  constructor
  · intro types types' changed h
    obtain ⟨r, hr, heq⟩ := like types
    exact hr.refines (heq ▸ h)
  · intro types types' h
    obtain ⟨r, hr, heq⟩ := like types
    exact hr.unchanged (heq ▸ h)

theorem impose_refines (d : Demand) : (t.impose d).Refines t.ontology := by
  cases d with
  | refuse fault => exact ⟨nofun, nofun⟩
  | typed e type => exact t.assign_refines e type
  | same v w => exact (t.share_refines _ _).andThen (t.share_refines _ _)
  | follow v object => exact t.propertyVariable_refines v object

theorem imposeAll_refines (ds : List Demand) : (t.imposeAll ds).Refines t.ontology := by
  refine .all fun r hr => ?_
  obtain ⟨d, _, rfl⟩ := List.mem_map.1 hr
  exact t.impose_refines d

/-- A demand that changes nothing is met. -/
theorem met_of_impose {d : Demand} {types types' : TypeMap}
    (h : t.impose d types = .ok (types', false)) : d.Met t.ontology types := by
  cases d with
  | refuse fault => cases h
  | typed e type => exact keeps_of_assign h
  | same v w =>
    obtain ⟨_, hfirst, hsecond⟩ := (t.share_refines _ _).andThen_unchanged (t.share_refines _ _) h
    exact ⟨fun _ => keeps_of_share hfirst, fun _ => keeps_of_share hsecond⟩
  | follow v object =>
    change t.propertyVariable v object types = _ at h
    unfold propertyVariable at h
    constructor
    · intro type htype e he
      rw [htype, he] at h
      exact keeps_of_assign h
    · intro hnone
      rw [hnone] at h
      -- The variable has no type, so a type of its object would have been given to it.
      have untyped : ∀ e, t.share e (some (.var v)) types = .ok (types', false) →
          types.find? e = none := by
        intro e hshare
        cases he : types.find? e with
        | none => rfl
        | some type =>
          obtain ⟨_, hsome, _⟩ := keeps_of_share hshare he
          cases hnone.symm.trans hsome
      cases object with
      | lit l =>
        obtain ⟨_, hsome, _⟩ := keeps_of_assign h
        cases hnone.symm.trans hsome
      | var u =>
        refine ⟨rfl, ?_⟩
        rintro e ⟨⟩
        exact untyped _ h
      | iri ref =>
        refine ⟨rfl, ?_⟩
        rintro e ⟨⟩
        exact untyped _ h

/-- Where all demands in turn change nothing, each is met. -/
theorem met_of_imposeAll {ds : List Demand} {types types' : TypeMap}
    (h : t.imposeAll ds types = .ok (types', false)) : ∀ d ∈ ds, d.Met t.ontology types := by
  intro d hd
  have hrules : ∀ r ∈ ds.map t.impose, r.Refines t.ontology := by
    intro r hr
    obtain ⟨d', _, rfl⟩ := List.mem_map.1 hr
    exact t.impose_refines d'
  exact t.met_of_impose (Rule.Refines.all_unchanged hrules h _ (List.mem_map.2 ⟨d, hd, rfl⟩))

theorem subjectClass_refines (s : Statement) : (t.subjectClass s).Refines t.ontology := by
  have like : ∀ types made, t.subjectClass s types = .ok made →
      ∃ r : Rule, r.Refines t.ontology ∧ r types = .ok made := by
    intro types made h
    unfold subjectClass at h
    split at h
    · split at h
      · exact ⟨_, Rule.idle_refines, h⟩
      · split at h
        · exact ⟨_, Rule.idle_refines, h⟩
        · obtain ⟨found, _, h⟩ := bind_eq_ok.1 h
          split at h
          · exact ⟨_, t.assign_refines _ _, h⟩
          · cases h
          · exact ⟨_, Rule.idle_refines, h⟩
    · exact ⟨_, Rule.idle_refines, h⟩
  constructor
  · intro types types' changed h
    obtain ⟨r, hr, hrun⟩ := like _ _ h
    exact hr.refines hrun
  · intro types types' h
    obtain ⟨r, hr, hrun⟩ := like _ _ h
    exact hr.unchanged hrun

end Typist

end OntoQuery
