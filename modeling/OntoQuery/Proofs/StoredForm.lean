import OntoQuery.Proofs.Flattening

/-!
# Stored forms

An IRI is stored under its own name, or under an internal one, or, for value content, under one of
the names that are told apart by hand (`Iri.toInternal_cases`). In each case the stored form is its
own stored form (`Iri.toInternal_toInternal`). Only `rdf:type` is stored as `rdf:type`, so a type
statement is recognised in any schema.
-/

namespace OntoQuery

namespace Iri

theorem split?_eq_some {iri : Iri} {ns name : String} :
    iri.split? = some (ns, name) ↔ iri = ns ++ "#" ++ name ∧ '#' ∉ ns.toList := by
  simp only [split?, Text.cutAt?, Option.map_eq_some_iff, Prod.exists, Text.cutAt_eq_some,
    Prod.mk.injEq]
  constructor
  · rintro ⟨before, after, ⟨hiri, hmark⟩, rfl, rfl⟩
    refine ⟨?_, by simpa using hmark⟩
    rw [← String.toList_inj]
    simpa using hiri
  · rintro ⟨rfl, hmark⟩
    exact ⟨ns.toList, name.toList, ⟨by simp, hmark⟩, by simp, by simp⟩

end Iri

/-- A cut leaves everything in place. -/
theorem Text.cutAround_eq {word cs before after : List Char}
    (h : cutAround word cs = some (before, after)) : cs = before ++ (word ++ after) := by
  induction cs generalizing before with
  | nil =>
    simp only [cutAround, Option.map_eq_some_iff, dropStart_eq_some, Prod.mk.injEq] at h
    obtain ⟨_, hcs, rfl, rfl⟩ := h
    exact hcs
  | cons c cs ih =>
    rw [cutAround] at h
    split at h
    · rename_i hstart
      cases h
      rw [dropStart_eq_some.1 hstart, List.nil_append]
    · obtain ⟨⟨start, rest⟩, hrest, heq⟩ := Option.map_eq_some_iff.1 h
      cases heq
      rw [ih hrest, List.cons_append]

theorem Text.subset_of_cutAround? {word s before after : String}
    (h : cutAround? word s = some (before, after)) : after.toList ⊆ s.toList := by
  obtain ⟨⟨start, rest⟩, hcut, heq⟩ := Option.map_eq_some_iff.1 h
  cases heq
  rw [cutAround_eq hcut, String.toList_ofList]
  exact List.subset_append_of_subset_right _ (List.subset_append_right _ _)

theorem Text.subset_of_dropEnding? {ending s rest : String} (h : dropEnding? ending s = some rest) :
    rest.toList ⊆ s.toList := by
  obtain ⟨start, hstart, rfl⟩ := Option.map_eq_some_iff.1 h
  rw [dropEnding_eq_some.1 hstart, String.toList_ofList]
  exact List.subset_append_left _ _

theorem Text.startsWith_append (start rest : String) : startsWith (start ++ rest) start = true := by
  unfold startsWith
  rw [dropStart_eq_some.2 (String.toList_append ..)]
  rfl

namespace Schema

theorem dropPathEnding_subset (path : String) : (dropPathEnding path).toList ⊆ path.toList := by
  unfold dropPathEnding
  split
  · rename_i h
    exact Text.subset_of_dropEnding? h
  · split
    · rename_i h
      exact Text.subset_of_dropEnding? h
    · exact List.Subset.refl _

/-- A namespace of a caller's schema has a path. -/
theorem exists_cut_of_ofNamespace? {ns : String} {schema : Schema}
    (h : ofNamespace? ns = some schema) (hschema : schema ≠ .internal) :
    ∃ host path, Text.cutAround? ontologySegment ns = some (host, path) := by
  unfold ofNamespace? at h
  split at h
  · exact absurd (Option.some.inj h).symm hschema
  · split at h
    · cases h
    · rename_i host path hcut
      exact ⟨host, path, hcut⟩

/-- An internal namespace has a path after the root. -/
theorem exists_path_of_internal {ns : String} (h : ofNamespace? ns = some .internal) :
    ∃ path, ns = internalRoot ++ path := by
  have hstart : Text.startsWith ns internalRoot = true := by
    unfold ofNamespace? at h
    split at h
    · assumption
    · split at h
      · cases h
      · split at h
        · cases h
        · split at h
          · cases h
          · split at h
            · cases h
            · cases h
  obtain ⟨rest, hrest⟩ := Option.isSome_iff_exists.1 hstart
  have heq := Text.dropStart_eq_some.1 hrest
  refine ⟨String.ofList rest, ?_⟩
  rw [← String.toList_inj, heq]
  simp

end Schema

namespace Iri

/-- The IRI has an internal name. -/
def Internal (iri : Iri) : Prop :=
  ∃ path name, '#' ∉ path.toList ∧ iri = Schema.internalRoot ++ path ++ "#" ++ name

/-- A name of the knowledge base's own vocabulary is internal. -/
theorem internal_of_base {name : String} : Internal (Base.vocabulary ++ name) := by
  refine ⟨"knora-base", name, by decide, ?_⟩
  rw [show Schema.internalRoot ++ "knora-base" ++ "#" = Base.vocabulary by decide]

theorem accessor_of_lookup {name : String} {target : Iri}
    (h : accessors.lookup name = some target) : (name, target) ∈ accessors := by
  obtain ⟨before, after, hsplit, _⟩ := List.lookup_eq_some_iff.1 h
  rw [hsplit]
  exact List.mem_append_right _ List.mem_cons_self

theorem stored_cases {schema : Schema} {ns name : String} (hns : '#' ∉ ns.toList)
    (h : Schema.ofNamespace? ns = some schema) (hschema : schema ≠ .internal) :
    schema.stored ns name ∈ accessors.map Prod.snd ∨ Internal (schema.stored ns name) := by
  unfold Schema.stored
  split
  · split
    · rename_i target hlookup
      exact .inl (List.mem_map.2 ⟨(name, target), accessor_of_lookup hlookup, rfl⟩)
    · exact .inr internal_of_base
  · obtain ⟨host, path, hcut⟩ := Schema.exists_cut_of_ofNamespace? h hschema
    rw [hcut]
    refine .inr ⟨Schema.dropPathEnding path, name, ?_, rfl⟩
    intro hmark
    exact hns (Text.subset_of_cutAround? hcut (Schema.dropPathEnding_subset path hmark))

theorem split?_internal {path : String} (hpath : '#' ∉ path.toList) (name : String) :
    split? (Schema.internalRoot ++ path ++ "#" ++ name) =
      some (Schema.internalRoot ++ path, name) := by
  have hroot : '#' ∉ Schema.internalRoot.toList := by decide
  apply split?_eq_some.2
  simp [hroot, hpath]

theorem ofNamespace?_internal (path : String) :
    Schema.ofNamespace? (Schema.internalRoot ++ path) = some .internal := by
  rw [Schema.ofNamespace?, if_pos (Text.startsWith_append _ _)]

/-- The internal IRIs are those with an internal name. -/
theorem ofIri?_eq_internal {iri : Iri} : Schema.ofIri? iri = some .internal ↔ Internal iri := by
  constructor
  · intro h
    unfold Schema.ofIri? at h
    split at h
    · rename_i ns name hsplit
      obtain ⟨rfl, hns⟩ := split?_eq_some.1 hsplit
      obtain ⟨path, rfl⟩ := Schema.exists_path_of_internal h
      exact ⟨path, name, fun hmark => hns (by simp [hmark]), rfl⟩
    · cases h
  · rintro ⟨path, name, hpath, rfl⟩
    rw [Schema.ofIri?, split?_internal hpath]
    exact ofNamespace?_internal path

theorem toInternal_of_internal {iri : Iri} (h : Internal iri) : iri.toInternal = iri := by
  obtain ⟨path, name, hpath, rfl⟩ := h
  unfold toInternal
  rw [split?_internal hpath]
  dsimp only
  rw [ofNamespace?_internal]

/-- What belongs to no schema is stored under its own name. -/
theorem toInternal_of_neutral {iri : Iri} (h : Schema.ofIri? iri = none) :
    iri.toInternal = iri := by
  unfold Schema.ofIri? at h
  unfold toInternal
  split
  · rfl
  · rename_i ns name hsplit
    rw [hsplit] at h
    dsimp only at h
    rw [h]

/-- The stored form of a name in a caller's namespace. -/
theorem toInternal_of_namespace {ns : String} {schema : Schema} (hns : '#' ∉ ns.toList)
    (hschema : Schema.ofNamespace? ns = some schema) (hinternal : schema ≠ .internal)
    (name : String) : toInternal (ns ++ "#" ++ name) = schema.stored ns name := by
  unfold toInternal
  rw [split?_eq_some.2 ⟨rfl, hns⟩]
  dsimp only
  rw [hschema]
  cases schema with
  | internal => exact absurd rfl hinternal
  | simple => rfl
  | complex => rfl

/-- An IRI of a caller's schema is stored under an internal name, or under one that is told apart by
hand. -/
theorem toInternal_of_external {iri : Iri} {schema : Schema} (h : Schema.ofIri? iri = some schema)
    (hschema : schema ≠ .internal) :
    iri.toInternal ∈ accessors.map Prod.snd ∨ Internal iri.toInternal := by
  unfold Schema.ofIri? at h
  split at h
  · rename_i ns name hsplit
    obtain ⟨rfl, hns⟩ := split?_eq_some.1 hsplit
    rw [toInternal_of_namespace hns h hschema]
    exact stored_cases hns h hschema
  · cases h

/-- The forms under which IRIs are stored. -/
theorem toInternal_cases (iri : Iri) :
    iri.toInternal = iri ∨ iri.toInternal ∈ accessors.map Prod.snd ∨ Internal iri.toInternal := by
  cases h : Schema.ofIri? iri with
  | none => exact .inl (toInternal_of_neutral h)
  | some schema =>
    by_cases hschema : schema = .internal
    · subst hschema
      exact .inl (toInternal_of_internal (ofIri?_eq_internal.1 h))
    · exact .inr (toInternal_of_external h hschema)

/-- The names under which value content is stored. -/
def contentNames : List String :=
  ["valueHasString", "valueHasLanguage", "valueHasInteger", "valueHasDecimal", "valueHasBoolean",
    "valueHasUri", "valueHasCalendar", "valueHasColor", "valueHasGeometry", "valueHasListNode",
    "valueHasIntervalStart", "valueHasIntervalEnd", "valueHasTimeStamp", "valueHasGeonameCode"]

theorem targets_accessors : accessors.map Prod.snd =
    contentNames.map (Base.vocabulary ++ ·) ++ [Rdf.object, Rdf.subject] := by
  decide +kernel

/-- Value content is stored under internal names, and the ends of a link as those of a statement. -/
theorem internal_of_accessor {iri : Iri} (h : iri ∈ accessors.map Prod.snd) :
    Internal iri ∨ iri ∈ [Rdf.object, Rdf.subject] := by
  rw [targets_accessors, List.mem_append] at h
  apply h.imp_left
  intro hcontent
  obtain ⟨name, _, rfl⟩ := List.mem_map.1 hcontent
  exact internal_of_base

theorem toInternal_of_accessor {iri : Iri} (h : iri ∈ accessors.map Prod.snd) :
    iri.toInternal = iri := by
  have hlinks : ∀ iri ∈ [Rdf.object, Rdf.subject], toInternal iri = iri := by decide +kernel
  exact (internal_of_accessor h).elim toInternal_of_internal (hlinks iri)

/-- **The stored form of a stored form is itself.** -/
@[simp] theorem toInternal_toInternal (iri : Iri) : iri.toInternal.toInternal = iri.toInternal := by
  rcases iri.toInternal_cases with h | h | h
  · rw [h, h]
  · exact toInternal_of_accessor h
  · exact toInternal_of_internal h

/-- What is outside the internal namespaces, and names no value content, is stored for nothing but
itself. -/
theorem toInternal_eq_iff {iri outside : Iri} (haccessor : outside ∉ accessors.map Prod.snd)
    (hroot : Text.startsWith outside Schema.internalRoot = false)
    (hself : outside.toInternal = outside) : iri.toInternal = outside ↔ iri = outside := by
  have hinternal : ¬ Internal outside := by
    rintro ⟨path, name, _, heq⟩
    have hstart := Text.startsWith_append Schema.internalRoot (path ++ "#" ++ name)
    rw [← String.append_assoc, ← String.append_assoc, ← heq] at hstart
    cases hroot.symm.trans hstart
  constructor
  · intro h
    rcases iri.toInternal_cases with hsame | hmem | hmem
    · exact hsame.symm.trans h
    · exact absurd (h ▸ hmem) haccessor
    · exact absurd (h ▸ hmem) hinternal
  · rintro rfl
    exact hself

/-- Nothing but `rdf:type` is stored as `rdf:type`. -/
theorem toInternal_eq_type {iri : Iri} : iri.toInternal = Rdf.type ↔ iri = Rdf.type :=
  toInternal_eq_iff (by decide) (by decide) (by decide)

end Iri

/-! ## Flattening again -/

@[simp] theorem Typeable.ofEntity?_flatten (e : Entity) :
    Typeable.ofEntity? e.flatten = Typeable.ofEntity? e := by
  cases e with
  | iri ref => simp [Entity.flatten, Entity.ofIri, IriRef.of, Typeable.ofEntity?]
  | var v => rfl
  | lit l => rfl

@[simp] theorem Entity.flatten_flatten (e : Entity) : e.flatten.flatten = e.flatten := by
  cases e with
  | iri ref => simp [Entity.flatten, Entity.ofIri, IriRef.of]
  | var v => rfl
  | lit l => rfl

namespace Statement

@[simp] theorem flatten_flatten (s : Statement) : s.flatten.flatten = s.flatten := by
  simp [flatten, map]

@[simp] theorem isType_flatten (s : Statement) : s.flatten.isType = s.isType := by
  obtain ⟨subject, predicate, object⟩ := s
  cases predicate with
  | iri ref =>
    have hsame : (ref.iri.toInternal == Rdf.type) = (ref.iri == Rdf.type) :=
      Bool.eq_iff_iff.2 (by simpa using Iri.toInternal_eq_type)
    exact hsame
  | var v => rfl
  | lit l => rfl

@[simp] theorem hasMainPredicate_flatten (s : Statement) :
    s.flatten.hasMainPredicate = s.hasMainPredicate := by
  obtain ⟨subject, predicate, object⟩ := s
  cases predicate with
  | iri ref => simp [hasMainPredicate, flatten, map, Entity.flatten, Entity.ofIri, IriRef.of]
  | var v => rfl
  | lit l => rfl

end Statement

end OntoQuery
