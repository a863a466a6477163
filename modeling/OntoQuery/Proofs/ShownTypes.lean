import OntoQuery.Proofs.Namespaces
import OntoQuery.Proofs.Settling

/-!
# The names under which types are told

The type of an entity is told in the schema of the query. In the simple schema the class of a kind
of values goes under the datatype of the kind, and all other types go under their own names. Whoever
writes the name back into a query means the type again, so the type should keep when its name comes
to it as a candidate. It does, if the name is its own stored form (`Typist.refine_shownType`). For
six kinds of values this is so, since a datatype of XML Schema is stored under its own name. For the
other seven it is not: their names in the simple schema are stored under names of no kind
(`Typist.refine_shownType_iff`).
-/

namespace OntoQuery

/-! ## Names of kinds -/

namespace Iri

theorem toInternal_xsd (name : String) :
    toInternal (Xsd.vocabulary ++ name) = Xsd.vocabulary ++ name := by
  apply toInternal_of_neutral
  have hsplit : split? (Xsd.vocabulary ++ name) = some ("http://www.w3.org/2001/XMLSchema", name) :=
    split?_eq_some.2 ⟨rfl, by decide⟩
  have hneutral : Schema.ofNamespace? "http://www.w3.org/2001/XMLSchema" = none := by decide
  rw [Schema.ofIri?, hsplit]
  exact hneutral

end Iri

namespace ValueKind

/-- The kinds that the simple schema shows by a datatype of XML Schema. -/
def plain : List ValueKind :=
  [text, int, decimal, boolean, uri, time]

/-- The kinds that the simple schema shows by a name in its own vocabulary. -/
def named : List ValueKind :=
  [date, color, geom, list, interval, geoname, link]

theorem mem_all (kind : ValueKind) : kind ∈ all := by
  cases kind <;> decide

theorem mem_named_of_not_mem_plain {kind : ValueKind} (h : kind ∉ plain) : kind ∈ named := by
  revert h
  cases kind <;> decide

/-- The names that the kinds in `named` have in the vocabulary of the simple schema. -/
def ownNames : List String :=
  ["Date", "Color", "Geom", "ListNode", "Interval", "Geoname", "Resource"]

theorem exists_name {kinds : List ValueKind} {iri : ValueKind → Iri} {names : List String}
    {vocabulary : String} (htable : kinds.map iri = names.map (vocabulary ++ ·)) {kind : ValueKind}
    (h : kind ∈ kinds) : ∃ name ∈ names, iri kind = vocabulary ++ name := by
  have hmem : iri kind ∈ kinds.map iri := List.mem_map_of_mem h
  rw [htable] at hmem
  obtain ⟨name, hname, heq⟩ := List.mem_map.1 hmem
  exact ⟨name, hname, heq.symm⟩

/-- The class of a kind is stored under its own name. -/
theorem toInternal_valueClass (kind : ValueKind) :
    kind.valueClass.toInternal = kind.valueClass := by
  have htable : all.map valueClass =
      ["TextValue", "IntValue", "DecimalValue", "BooleanValue", "UriValue", "DateValue",
        "ColorValue", "GeomValue", "ListValue", "IntervalValue", "TimeValue", "GeonameValue",
        "LinkValue"].map
          (Base.vocabulary ++ ·) := rfl
  obtain ⟨name, _, heq⟩ := exists_name htable kind.mem_all
  rw [heq]
  exact Iri.toInternal_of_internal Iri.internal_of_base

theorem toInternal_of_plain {kind : ValueKind} (h : kind ∈ plain) :
    kind.simpleDatatype.toInternal = kind.simpleDatatype := by
  have htable : plain.map simpleDatatype =
      ["string", "integer", "decimal", "boolean", "anyURI", "dateTimeStamp"].map
        (Xsd.vocabulary ++ ·) :=
    rfl
  obtain ⟨name, _, heq⟩ := exists_name htable h
  rw [heq]
  exact Iri.toInternal_xsd name

theorem toInternal_of_named {kind : ValueKind} (h : kind ∈ named) :
    ∃ name ∈ ownNames, kind.simpleDatatype = Simple.vocabulary ++ name ∧
      kind.simpleDatatype.toInternal = Base.vocabulary ++ name := by
  have htable : named.map simpleDatatype = ownNames.map (Simple.vocabulary ++ ·) := rfl
  obtain ⟨name, hname, heq⟩ := exists_name htable h
  refine ⟨name, hname, heq, ?_⟩
  rw [heq]
  exact Iri.toInternal_simple name

/-- **Six kinds are shown under names that are their own stored forms.** -/
theorem toInternal_simpleDatatype_iff (kind : ValueKind) :
    kind.simpleDatatype.toInternal = kind.simpleDatatype ↔ kind ∈ plain := by
  constructor
  · intro hstored
    by_contra hplain
    obtain ⟨name, _, heq, heq'⟩ := toInternal_of_named (mem_named_of_not_mem_plain hplain)
    rw [heq', heq, String.append_left_inj] at hstored
    exact absurd hstored (by decide)
  · exact toInternal_of_plain

theorem ofValueClass?_valueClass : ∀ kind ∈ all, ofValueClass? kind.valueClass = some kind := by
  decide +kernel

theorem ofType?_valueClass (kind : ValueKind) : ofType? kind.valueClass = some kind := by
  rw [ofType?, ofValueClass?_valueClass kind kind.mem_all]

/-- The datatypes of XML Schema are read as the kinds again. -/
theorem ofType?_of_plain : ∀ kind ∈ plain, ofType? kind.simpleDatatype = some kind := by
  decide +kernel

/-- The other names are stored as those of no kind, and not as the class of all values. -/
theorem ownNames_apart : ∀ name ∈ ownNames, ofValueClass? (Base.vocabulary ++ name) = none ∧
    ofDatatype? (Base.vocabulary ++ name) = none ∧ Base.vocabulary ++ name ≠ Base.value := by
  decide +kernel

theorem ofType?_of_named {kind : ValueKind} (h : kind ∈ named) :
    ofType? kind.simpleDatatype.toInternal = none := by
  obtain ⟨name, hname, _, heq⟩ := toInternal_of_named h
  obtain ⟨hclass, hdatatype, _⟩ := ownNames_apart name hname
  have hstored : Iri.toInternal (Base.vocabulary ++ name) = Base.vocabulary ++ name :=
    Iri.toInternal_of_internal Iri.internal_of_base
  rw [heq, ofType?, hclass, hdatatype, hstored, hclass]

end ValueKind

/-! ## Classes of values -/

namespace Ontology
variable {o : Ontology}

theorem isSubclassOf_of_class?_eq_none {type : Iri} (htype : o.class? type = none) (above : Iri) :
    o.isSubclassOf type above = (type == above) := by
  simp [isSubclassOf, superclasses, htype]

theorem isValueClass_of_class?_eq_none {type : Iri} (htype : o.class? type = none) :
    o.isValueClass type = false := by
  simp [isValueClass, htype]

theorem lookup_skeleton : ∀ kind ∈ ValueKind.all,
    Definitions.skeleton.classHierarchy.lookup kind.valueClass = some [Base.value] := by
  decide +kernel

section
variable {defs : Definitions} (h : build defs = .ok o)
include h

/-- Above the class of a kind of values there is the class of all values, and nothing else. -/
theorem mem_superclasses_valueClass (kind : ValueKind) {above : Iri} :
    above ∈ o.superclasses kind.valueClass ↔ above = Base.value := by
  have own : ∀ iri above, Definitions.skeleton.classHierarchy.lookup iri = some above →
      (Definitions.skeleton ++ defs).classHierarchy.parents iri = above := by
    intro iri above hown
    change (List.lookup iri (List.map _ (Definitions.skeleton.classes ++ defs.classes))).getD [] =
      above
    rw [List.map_append, List.lookup_append]
    exact congrArg (fun found => (Option.or found _).getD []) hown
  have hfirst := own kind.valueClass [Base.value] (lookup_skeleton kind kind.mem_all)
  have htop := own Base.value [] (by decide +kernel)
  rw [mem_superclasses_iff h]
  constructor
  · rintro ⟨n, hchain⟩
    induction hchain with
    | parent hp => simpa [hfirst] using hp
    | step _ hp ih =>
      rw [ih, htop] at hp
      cases hp
  · rintro rfl
    exact ⟨1, .parent (by simp [hfirst])⟩

theorem isValueClass_valueClass (kind : ValueKind) : o.isValueClass kind.valueClass = true := by
  have habove := (mem_superclasses_valueClass h kind).2 rfl
  simp [isValueClass, isSubclassOf, class?_of_mem_superclasses habove, habove]

end

end Ontology

/-! ## The name as a candidate -/

namespace Typist
variable {t : Typist}
  (hplain : t.schema = .simple → ∀ kind : ValueKind, t.ontology.class? kind.simpleDatatype = none)
include hplain

/-- **A type that is told under a stored name keeps when this name comes to it.** If the name is
another one, the type replaces it. -/
theorem refine_shownType {type : Iri} (hstored : (t.shownType type).toInternal = t.shownType type) :
    t.ontology.refine type (t.shownType type) = .keep ∧
      (t.shownType type = type ∨ t.ontology.refine (t.shownType type) type = .replace) := by
  have itself : t.ontology.refine type type = .keep ∧
      (type = type ∨ t.ontology.refine type type = .replace) :=
    ⟨t.ontology.refine_self type, .inl rfl⟩
  unfold shownType at hstored ⊢
  split
  · rename_i hvalue
    rw [if_pos hvalue] at hstored
    cases hkind : ValueKind.ofType? type with
    | none => exact itself
    | some kind =>
      -- The datatype is no class, so it is compared with the class by the kind of value.
      rw [hkind] at hstored
      dsimp only at hstored ⊢
      have hclass := hplain hvalue.1 kind
      have hread := ValueKind.ofType?_of_plain kind (kind.toInternal_simpleDatatype_iff.1 hstored)
      have hnot := Ontology.isValueClass_of_class?_eq_none hclass
      have hbelow : t.ontology.isSubclassOf kind.simpleDatatype type = false := by
        rw [Ontology.isSubclassOf_of_class?_eq_none hclass, beq_eq_false_iff_ne]
        rintro rfl
        rw [hnot] at hvalue
        cases hvalue.2
      unfold Ontology.refine
      rw [hbelow, hkind, hread]
      simp only [hnot, hvalue.2, Bool.false_and, Bool.false_eq_true, if_false, Bool.not_false,
        Bool.and_self, if_true, ite_self, or_true, and_self]
  · exact itself

/-- **The class of a kind of values is told under a name that reads as the class again**, unless the
schema is the simple one and the kind is none of these six. -/
theorem refine_shownType_iff {defs : Definitions} (h : Ontology.build defs = .ok t.ontology)
    (kind : ValueKind) :
    t.ontology.refine kind.valueClass (t.shownType kind.valueClass).toInternal = .keep ↔
      (t.schema = .simple → kind ∈ ValueKind.plain) := by
  have hvalue := Ontology.isValueClass_valueClass h kind
  by_cases hsimple : t.schema = .simple
  · have hshown : t.shownType kind.valueClass = kind.simpleDatatype := by
      simp [shownType, hsimple, hvalue, ValueKind.ofType?_valueClass]
    rw [hshown]
    by_cases hmem : kind ∈ ValueKind.plain
    · have hstored := ValueKind.toInternal_of_plain hmem
      have hkeep := (refine_shownType hplain (hshown.symm ▸ hstored)).1
      rw [hshown] at hkeep
      simp only [hstored, hkeep, hmem, implies_true]
    · -- The stored name is neither above the class nor of its kind.
      have hnamed := ValueKind.mem_named_of_not_mem_plain hmem
      have habove :
          t.ontology.isSubclassOf kind.valueClass kind.simpleDatatype.toInternal = false := by
        obtain ⟨name, hname, _, heq⟩ := ValueKind.toInternal_of_named hnamed
        obtain ⟨hclass, _, htop⟩ := ValueKind.ownNames_apart name hname
        have hother : kind.valueClass ≠ Base.vocabulary ++ name := by
          intro hsame
          rw [← hsame, ValueKind.ofValueClass?_valueClass kind kind.mem_all] at hclass
          cases hclass
        simp [Ontology.isSubclassOf, heq, hother, Ontology.mem_superclasses_valueClass h, htop]
      unfold Ontology.refine
      rw [habove, ValueKind.ofType?_of_named hnamed]
      simp only [hsimple, hmem, Bool.false_eq_true, if_false, forall_const, iff_false]
      split
      · simp
      · cases ValueKind.ofType? kind.valueClass <;> simp
  · have hshown : t.shownType kind.valueClass = kind.valueClass := by simp [shownType, hsimple]
    rw [hshown, kind.toInternal_valueClass]
    simp [hsimple, t.ontology.refine_self]

end Typist

end OntoQuery
