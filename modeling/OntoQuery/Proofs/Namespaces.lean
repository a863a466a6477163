import OntoQuery.Proofs.StoredForm

/-!
# Namespaces

What is stored for the names of the knowledge base's own vocabularies: a simple one for the name
itself (`Iri.toInternal_simple`), a complex one for it too unless it is told apart by hand
(`Iri.toInternal_complex`). An internal IRI determines its path and its local part
(`Iri.internal_inj`).
-/

namespace OntoQuery

namespace Text

theorem endsWith_iff {s ending : String} : endsWith s ending = true ↔
    ending.toList <:+ s.toList := by
  rw [endsWith, Option.isSome_iff_exists]
  exact exists_congr fun rest => dropEnding_eq_some.trans eq_comm

/-- Whether a text ends so is decided by a tail that is long enough. -/
theorem endsWith_append (s : String) {tail ending : String}
    (h : ending.toList.length ≤ tail.toList.length) :
    endsWith (s ++ tail) ending = endsWith tail ending := by
  rw [Bool.eq_iff_iff, endsWith_iff, endsWith_iff, String.toList_append]
  constructor
  · intro hsuffix
    exact List.suffix_of_suffix_length_le hsuffix (List.suffix_append _ _) h
  · intro hsuffix
    exact hsuffix.trans (List.suffix_append _ _)

theorem eq_of_cutAround? {word s before after : String}
    (h : cutAround? word s = some (before, after)) : s = before ++ word ++ after := by
  obtain ⟨⟨start, rest⟩, hcut, heq⟩ := Option.map_eq_some_iff.1 h
  cases heq
  rw [← String.toList_inj, cutAround_eq hcut]
  simp

theorem dropEnding?_eq_some {ending s rest : String} :
    dropEnding? ending s = some rest ↔ s = rest ++ ending := by
  rw [dropEnding?, Option.map_eq_some_iff]
  constructor
  · rintro ⟨start, hstart, rfl⟩
    rw [← String.toList_inj, dropEnding_eq_some.1 hstart]
    simp
  · rintro rfl
    exact ⟨rest.toList, dropEnding_eq_some.2 (String.toList_append ..), String.ofList_toList⟩

end Text

namespace Iri

/-- An internal name determines its path and its local part. -/
theorem internal_inj {path path' name name' : String} (hpath : '#' ∉ path.toList)
    (hpath' : '#' ∉ path'.toList)
    (h : Schema.internalRoot ++ path ++ "#" ++ name = Schema.internalRoot ++ path' ++
      "#" ++ name') :
    path = path' ∧ name = name' := by
  have heq := (split?_internal hpath name).symm.trans
    ((congrArg split? h).trans (split?_internal hpath' name'))
  simp only [Option.some.injEq, Prod.mk.injEq] at heq
  exact ⟨(String.append_right_inj _).1 heq.1, heq.2⟩

def complexNamespace : String := "http://api.knora.org/ontology/knora-api/v2"

def simpleNamespace : String := "http://api.knora.org/ontology/knora-api/simple/v2"

theorem complexNamespace_append : complexNamespace ++ "#" = Complex.vocabulary := by decide

theorem simpleNamespace_append : simpleNamespace ++ "#" = Simple.vocabulary := by decide

theorem ofNamespace?_complex : Schema.ofNamespace? complexNamespace = some .complex := by decide

theorem ofNamespace?_simple : Schema.ofNamespace? simpleNamespace = some .simple := by decide

theorem stored_simple (name : String) :
    Schema.simple.stored simpleNamespace name = Base.vocabulary ++ name := by
  unfold Schema.stored
  rw [if_pos (by decide)]

theorem toInternal_simple (name : String) :
    toInternal (Simple.vocabulary ++ name) = Base.vocabulary ++ name := by
  rw [← simpleNamespace_append, toInternal_of_namespace (by decide) ofNamespace?_simple nofun,
    stored_simple]

theorem stored_complex (name : String) :
    Schema.complex.stored complexNamespace name =
      (accessors.lookup name).getD (Base.vocabulary ++ name) := by
  unfold Schema.stored
  rw [if_pos (by decide)]
  cases accessors.lookup name <;> rfl

theorem toInternal_complex (name : String) :
    toInternal (Complex.vocabulary ++ name) = (accessors.lookup name).getD
      (Base.vocabulary ++ name) := by
  rw [← complexNamespace_append, toInternal_of_namespace (by decide) ofNamespace?_complex nofun,
    stored_complex]

/-- Value content is stored under names of its own in the knowledge base's vocabulary. -/
theorem mem_targets_accessors {name : String} :
    Base.vocabulary ++ name ∈ accessors.map Prod.snd ↔ name ∈ contentNames := by
  have houtside : ∀ target ∈ [Rdf.object, Rdf.subject],
      Text.startsWith target Base.vocabulary = false := by decide
  rw [targets_accessors, List.mem_append, List.mem_map]
  constructor
  · intro h
    cases h with
    | inl hcontent =>
      obtain ⟨name', hname', heq⟩ := hcontent
      exact (String.append_right_inj _).1 heq ▸ hname'
    | inr hlink =>
      have hstart := houtside _ hlink
      rw [Text.startsWith_append] at hstart
      cases hstart
  · intro hname
    exact .inl ⟨name, hname, rfl⟩

theorem eq_of_isBaseNamespace {ns : String} (h : Schema.isBaseNamespace ns = true) :
    ns = complexNamespace ∨ ns = simpleNamespace := by
  simp only [Schema.isBaseNamespace, Bool.or_eq_true, beq_iff_eq] at h
  exact h.imp (String.append_left_inj _).1 (String.append_left_inj _).1

end Iri

end OntoQuery
