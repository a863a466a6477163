import Mathlib.Data.List.Forall2
import OntoQuery.Proofs.StoredForm
import OntoQuery.Typing.Types

/-!
# Flat form

Flattening takes a group to its flat form, in which every IRI is a stored one or belongs to no
schema (`Iri.ofIri?_toInternal`). All else stays where it is: `Group.SameShape` compares two groups
place by place, and flattening changes nothing but the IRIs (`Group.sameShape_maps`). What is flat
already stays as it is, and a type is found under an entity and under its flat form alike
(`flattening_projects`).
-/

namespace OntoQuery

/-! ## Replacing entities -/

theorem Expression.map_map (f g : Entity → Entity) (e : Expression) :
    (e.map f).map g = e.map (g ∘ f) := by
  induction e using by_operands with
  | step e ih =>
    cases e with
    | call function args => simpa [map, maps_eq_map, operands] using ih
    | _ => simp_all [map, operands]

theorem Pattern.maps_maps (f g : Entity → Entity) (group : Group) :
    maps g (maps f group) = maps (g ∘ f) group := by
  induction group using Group.by_groups with
  | nil => rfl
  | cons p ps ihg ih =>
    have hp : (p.map f).map g = p.map (g ∘ f) := by
      cases p with
      | statement s => rfl
      | filter e => simp [map, e.map_map]
      | union gs => simpa [map, groups, mapGroups_eq_map] using ihg
      | _ => simp_all [map, groups]
    rw [maps, maps, maps, hp, ih]

/-! ## The same shape -/

/-- Expressions with the same operators, and with entities that are related place by place. -/
inductive Expression.SameShape (R : Entity → Entity → Prop) : Expression → Expression → Prop where
  | entity {e e' : Entity} : R e e' → SameShape R (.entity e) (.entity e')
  | compare {left left' right right' : Expression} (op : Comparison) : SameShape R left left' →
    SameShape R right right' → SameShape R (.compare left op right) (.compare left' op right')
  | and {left left' right right' : Expression} : SameShape R left left' → SameShape R right right' →
    SameShape R (.and left right) (.and left' right')
  | or {left left' right right' : Expression} : SameShape R left left' → SameShape R right right' →
    SameShape R (.or left right) (.or left' right')
  | not {inner inner' : Expression} : SameShape R inner inner' →
    SameShape R (.not inner) (.not inner')
  | call {args args' : List Expression} (function : Function) :
    List.Forall₂ (SameShape R) args args' →
      SameShape R (.call function args) (.call function args')

/-- Patterns of the same kind, with groups and expressions of the same shape in them and with
entities that are related place by place. -/
inductive Pattern.SameShape (R : Entity → Entity → Prop) : Pattern → Pattern → Prop where
  | statement {s s' : Statement} : R s.subject s'.subject → R s.predicate s'.predicate →
    R s.object s'.object → SameShape R (.statement s) (.statement s')
  | optional {g g' : Group} : List.Forall₂ (SameShape R) g g' →
    SameShape R (.optional g) (.optional g')
  | union {gs gs' : List Group} : List.Forall₂ (List.Forall₂ (SameShape R)) gs gs' →
    SameShape R (.union gs) (.union gs')
  | filter {e e' : Expression} : e.SameShape R e' → SameShape R (.filter e) (.filter e')
  | minus {g g' : Group} : List.Forall₂ (SameShape R) g g' → SameShape R (.minus g) (.minus g')

/-- Groups of patterns of the same shape, one by one. -/
def Group.SameShape (R : Entity → Entity → Prop) (g g' : Group) : Prop :=
  List.Forall₂ (Pattern.SameShape R) g g'

section
variable {R : Entity → Entity → Prop} {f : Entity → Entity} (h : ∀ e, R e (f e))
include h

theorem Expression.sameShape_map (e : Expression) : e.SameShape R (e.map f) := by
  induction e using by_operands with
  | step e ih =>
    cases e with
    | entity term => exact .entity (h term)
    | compare left op right =>
      exact .compare op (ih _ (by simp [operands])) (ih _ (by simp [operands]))
    | and left right => exact .and (ih _ (by simp [operands])) (ih _ (by simp [operands]))
    | or left right => exact .or (ih _ (by simp [operands])) (ih _ (by simp [operands]))
    | not inner => exact .not (ih _ (by simp [operands]))
    | call function args =>
      rw [map, maps_eq_map]
      exact .call function (List.forall₂_map_right_iff.2 (List.forall₂_same.2 ih))

/-- Replacing entities keeps the shape. -/
theorem Group.sameShape_maps (g : Group) : g.SameShape R (Pattern.maps f g) := by
  induction g using by_groups with
  | nil => exact .nil
  | cons p ps ihg ih =>
    refine .cons ?_ ih
    cases p with
    | statement s => exact .statement (h _) (h _) (h _)
    | optional g => exact .optional (ihg g (by simp [Pattern.groups]))
    | union gs =>
      rw [Pattern.map, Pattern.mapGroups_eq_map]
      exact .union (List.forall₂_map_right_iff.2 (List.forall₂_same.2 ihg))
    | filter e => exact .filter (Expression.sameShape_map h e)
    | minus g => exact .minus (ihg g (by simp [Pattern.groups]))

end

/-! ## Entities at any depth -/

/-- The entity stands in a statement or in a filter of the group, at any depth. -/
inductive Group.HasEntity (g : Group) (e : Entity) : Prop where
  | statement {s : Statement} : g.Has (.statement s) → e ∈ s.entities → HasEntity g e
  | filter {condition : Expression} : g.Has (.filter condition) → condition.Has (.entity e) →
    HasEntity g e

namespace Group

/-- An entity of a group with its entities replaced has replaced one of the group. -/
theorem HasEntity.exists_origin {f : Entity → Entity} {g : Group} {e : Entity}
    (h : HasEntity (Pattern.maps f g) e) : ∃ origin, g.HasEntity origin ∧ f origin = e := by
  cases h with
  | statement hs he =>
    obtain ⟨origin, horigin, hmap⟩ := hs.exists_of_maps
    cases origin with
    | statement s =>
      cases hmap
      have hentities : (s.map f).entities = s.entities.map f := rfl
      rw [hentities, List.mem_map] at he
      obtain ⟨entity, hentity, rfl⟩ := he
      exact ⟨entity, .statement horigin hentity, rfl⟩
    | _ => cases hmap
  | filter hc he =>
    obtain ⟨origin, horigin, hmap⟩ := hc.exists_of_maps
    cases origin with
    | filter condition =>
      cases hmap
      obtain ⟨part, hhas, hpart⟩ := he.exists_of_map
      cases part with
      | entity term =>
        cases hpart
        exact ⟨term, .filter horigin hhas, rfl⟩
      | _ => cases hpart
    | _ => cases hmap

theorem HasEntity.exists_of_maps {f : Entity → Entity} {g : Group} {e : Entity}
    (h : HasEntity (Pattern.maps f g) e) : ∃ origin, f origin = e := by
  obtain ⟨origin, _, horigin⟩ := h.exists_origin
  exact ⟨origin, horigin⟩

end Group

/-! ## Flattening -/

/-- **Flattening a second time changes nothing.** -/
theorem Group.flatten_flatten (g : Group) : g.flatten.flatten = g.flatten := by
  have htwice : Entity.flatten ∘ Entity.flatten = Entity.flatten := funext Entity.flatten_flatten
  unfold flatten
  rw [Pattern.maps_maps, htwice]

namespace Iri

/-- A stored form is internal or belongs to no schema. -/
theorem ofIri?_toInternal (iri : Iri) :
    Schema.ofIri? iri.toInternal = none ∨ Schema.ofIri? iri.toInternal = some .internal := by
  have hlinks : ∀ target ∈ [Rdf.object, Rdf.subject], Schema.ofIri? target = none := by
    decide +kernel
  cases h : Schema.ofIri? iri with
  | none =>
    rw [toInternal_of_neutral h]
    exact .inl h
  | some schema =>
    by_cases hschema : schema = .internal
    · subst hschema
      rw [toInternal_of_internal (ofIri?_eq_internal.1 h)]
      exact .inr h
    · cases toInternal_of_external h hschema with
      | inl hmem =>
        cases internal_of_accessor hmem with
        | inl hinternal => exact .inr (ofIri?_eq_internal.2 hinternal)
        | inr hlink => exact .inl (hlinks _ hlink)
      | inr hinternal => exact .inr (ofIri?_eq_internal.2 hinternal)

end Iri

/-- The second entity is the stored form of the first: of an IRI the one under which the knowledge
base stores what it names, tagged by its own namespace; of a variable or a literal itself. -/
inductive Entity.StoredAs : Entity → Entity → Prop where
  | iri (ref : IriRef) :
    StoredAs (.iri ref) (.iri ⟨ref.iri.toInternal, Schema.ofIri? ref.iri.toInternal⟩)
  | var (v : Variable) : StoredAs (.var v) (.var v)
  | lit (l : Literal) : StoredAs (.lit l) (.lit l)

theorem Entity.storedAs_flatten (e : Entity) : e.StoredAs e.flatten := by
  cases e with
  | iri ref => exact .iri ref
  | var v => exact .var v
  | lit l => exact .lit l

theorem Types.get?_flatten (types : Types) (e : Entity) : types.get? e.flatten = types.get? e := by
  rw [get?, Typeable.ofEntity?_flatten, get?]

/-- **Flattening projects groups onto internal IRIs.** A flat group is its own flat form; an IRI in
it, in a statement or in a filter at any depth, is internal or belongs to no schema, and is tagged
so; it has the shape of the group that it comes from, with the same variables and literals in their
places; and whatever types entities have, the flat form of an entity has the same. -/
theorem flattening_projects (g : Group) :
    g.flatten.flatten = g.flatten ∧
    (∀ ref, g.flatten.HasEntity (.iri ref) → ref.schema = Schema.ofIri? ref.iri ∧
      (ref.schema = none ∨ ref.schema = some .internal)) ∧
    g.SameShape Entity.StoredAs g.flatten ∧
    ∀ (types : Types) (e : Entity), types.get? e.flatten = types.get? e := by
  refine ⟨g.flatten_flatten, ?_, g.sameShape_maps Entity.storedAs_flatten, Types.get?_flatten⟩
  intro ref h
  obtain ⟨origin, horigin⟩ := h.exists_of_maps
  cases origin with
  | iri source =>
    cases horigin
    exact ⟨rfl, source.iri.ofIri?_toInternal⟩
  | var v => cases horigin
  | lit l => cases horigin

end OntoQuery
