import OntoQuery.Proofs.Entities
import OntoQuery.Proofs.Steps
import OntoQuery.Typing.Inference

/-!
# What inference tells of a query

The types of a query are put together from the roles that entities have in its body and from the
types that are found for them. `Typist.describe_eq_some` and `Typist.describe_eq_none` say what is
told of one entity, and `Query.find?_of_inferTypes` what is told by the types as a whole.
-/

namespace OntoQuery

/-! ## Roles -/

namespace Roles
variable {g : Group} {e : Typeable}

theorem mem_order_iff :
    e ∈ (ofGroup g).order ↔ ∃ s ∈ g.statements, ∃ asPredicate,
      (e, asPredicate) ∈ ofStatement s := by
  simp only [ofGroup, List.mem_eraseDups, List.mem_map, List.mem_flatMap, Prod.exists]
  constructor
  · rintro ⟨_, asPredicate, ⟨s, hs, hplace⟩, rfl⟩
    exact ⟨s, hs, asPredicate, hplace⟩
  · rintro ⟨s, hs, asPredicate, hplace⟩
    exact ⟨e, asPredicate, ⟨s, hs, hplace⟩, rfl⟩

theorem mem_predicates_iff :
    e ∈ (ofGroup g).predicates ↔ ∃ s ∈ g.statements, (e, true) ∈ ofStatement s := by
  simp [ofGroup, List.mem_eraseDups]

theorem mem_others_iff : e ∈ (ofGroup g).others ↔ ∃ s ∈ g.statements,
    (e, false) ∈ ofStatement s := by
  simp [ofGroup, List.mem_eraseDups]

theorem conflict?_eq_none {roles : Roles} :
    roles.conflict? = none ↔ ∀ e ∈ roles.predicates, e ∉ roles.others := by
  simp [conflict?]

end Roles

/-! ## One entity -/

namespace Typist
variable {t : Typist} {roles : Roles} {types : TypeMap} {e : Typeable}

/-- What is told of an entity for which the type is found: it is a property if it is a predicate. -/
def info (t : Typist) (roles : Roles) (e : Typeable) (type : Iri) : TypeInfo :=
  if e ∈ roles.predicates then t.propertyInfo e type else t.entityInfo type

theorem isProperty_info {type : Iri} :
    (t.info roles e type).isProperty = true ↔ e ∈ roles.predicates := by
  unfold info
  split
  · rename_i hpredicate
    refine iff_of_true ?_ hpredicate
    cases e <;> rfl
  · rename_i hpredicate
    exact iff_of_false Bool.false_ne_true hpredicate

theorem describe_eq_some {told : Typeable × TypeInfo} :
    t.describe roles types e = .ok (some told) ↔
      ∃ type, types.find? e = some type ∧ told = (e, t.info roles e type) := by
  unfold describe info
  simp only [List.contains_iff_mem]
  cases types.find? e with
  | none =>
    split
    · cases e <;> simp
    · simp
  | some type => split <;> simp [eq_comm]

/-- Nothing is told of an entity without a type. A variable that is a predicate must have one. -/
theorem describe_eq_none :
    t.describe roles types e = .ok none ↔
      types.find? e = none ∧ (e ∈ roles.predicates → ∀ v, e ≠ .var v) := by
  unfold describe
  simp only [List.contains_iff_mem]
  cases types.find? e with
  | some type => split <;> simp
  | none =>
    split
    · rename_i hpredicate
      cases e <;> simp [hpredicate]
    · rename_i hpredicate
      simp [hpredicate]

theorem describe_key {told : Typeable × TypeInfo} (h : t.describe roles types e = .ok (some told)) :
    told.1 = e := by
  obtain ⟨_, _, rfl⟩ := describe_eq_some.1 h
  rfl

/-- What is found of an entity among descriptions is its own one. -/
theorem lookup_described {describe : Typeable → Except Fault (Option (Typeable × TypeInfo))}
    (hkey : ∀ e told, describe e = .ok (some told) → told.1 = e) {order : List Typeable}
    {infos : List (Option (Typeable × TypeInfo))}
    (h : List.Forall₂ (fun e info => describe e = .ok info) order infos) (e : Typeable)
    (info : TypeInfo) :
    (infos.filterMap id).lookup e = some info ↔ e ∈ order ∧ describe e = .ok (some (e, info)) := by
  induction h with
  | nil => simp
  | @cons e' told order infos htold _ ih =>
    cases told with
    | none =>
      rw [List.filterMap_cons_none rfl, ih, List.mem_cons]
      refine and_congr_left fun hdescribe => ⟨.inr, fun hmem => hmem.resolve_left ?_⟩
      rintro rfl
      cases htold.symm.trans hdescribe
    | some told =>
      obtain ⟨key, info'⟩ := told
      obtain rfl : key = e' := hkey e' _ htold
      change ((key, info') :: infos.filterMap id).lookup e = some info ↔ _
      rw [List.lookup_cons, List.mem_cons]
      by_cases he : e = key
      · subst he
        simp [htold]
      · rw [beq_eq_false_iff_ne.2 he, or_iff_right he]
        exact ih

end Typist

/-! ## The whole -/

namespace Query
variable {q : Query} {o : Ontology} {rounds : Nat} {types : Types}
  (h : q.inferTypes o rounds = .ok types)
include h

/-- The types of a query are the descriptions of what stands in its body, where nothing is both a
predicate and something else. -/
theorem described_of_inferTypes :
    (∀ e ∈ (Roles.ofGroup q.body).predicates, e ∉ (Roles.ofGroup q.body).others) ∧
    ∃ p infos, Typist.infer ⟨o, q.schema⟩ rounds q.body = .ok p ∧
      List.Forall₂ (fun e info =>
        Typist.describe ⟨o, q.schema⟩ (Roles.ofGroup q.body) p.types e = .ok info)
        (Roles.ofGroup q.body).order infos ∧
      types.entries = infos.filterMap id := by
  unfold inferTypes at h
  dsimp only at h
  split at h
  · cases h
  · rename_i hconflict
    obtain ⟨p, hp, h⟩ := bind_eq_ok.1 h
    obtain ⟨infos, hinfos, h⟩ := bind_eq_ok.1 h
    cases pure_eq_ok.1 h
    exact ⟨Roles.conflict?_eq_none.1 hconflict, p, infos, mapError_eq_ok.1 hp,
      forall₂_of_mapM_ok hinfos, rfl⟩

/-- **What is told of an entity**: its info by the type that is found for it, if it stands in the
body. -/
theorem find?_of_inferTypes :
    ∃ p, Typist.infer ⟨o, q.schema⟩ rounds q.body = .ok p ∧ ∀ e info, types.find? e = some info ↔
      e ∈ (Roles.ofGroup q.body).order ∧ ∃ type, p.types.find? e = some type ∧
        info = Typist.info ⟨o, q.schema⟩ (Roles.ofGroup q.body) e type := by
  obtain ⟨_, p, infos, hp, hinfos, hentries⟩ := described_of_inferTypes h
  refine ⟨p, hp, fun e info => ?_⟩
  have hlookup := Typist.lookup_described (fun _ _ => Typist.describe_key) hinfos e info
  rw [← hentries] at hlookup
  refine hlookup.trans (and_congr_right fun _ => ?_)
  simp only [Typist.describe_eq_some, Prod.mk.injEq, true_and]

end Query

end OntoQuery
