import Mathlib.Data.List.Nodup
import OntoQuery.Proofs.Inheritance
import OntoQuery.Proofs.WellFormed

/-!
# Ontologies extend conservatively

More definitions may be added to those of an ontology. If all of them together make an ontology
again, it has every class and every property as it was, but for what is below it, which goes on
where it ended; and the questions about classes are answered as before on every IRI that is not
among the added classes, those about properties on every IRI that is not among the added properties
(`Ontology.KeptIn`, `extension_conservative`). An IRI may be defined both as a class and as a
property. So one that was a property only can become a class, and then the answers about classes
change on it (`property_becomes_class`).

An IRI that something old extends is old. So the search upwards that starts from an old IRI never
comes to a new one (`Hierarchy.climb_append`), and the table of all that is above goes on where it
ended (`Hierarchy.closure_append`). What is below is read off that table in its order.
-/

namespace OntoQuery

/-! ## Hierarchies -/

namespace Hierarchy

theorem parents_append (h : Hierarchy) {new : Hierarchy} {iri : Iri} (hi : iri ∉ new.names) :
    parents (h ++ new) iri = h.parents iri := by
  unfold parents
  rw [List.lookup_append]
  cases h.lookup iri with
  | some direct => rfl
  | none => exact parents_of_not_mem hi

theorem below_append (h new : Hierarchy) (iri : Iri) :
    below (h ++ new) iri = h.below iri ++ new.below iri := by
  unfold below
  rw [List.filter_append, List.map_append]

section
variable {h new : Hierarchy} (hr : h.Rooted) (hnew : ∀ iri ∈ h.names, iri ∉ new.names)
include hr hnew

/-- **The search upwards stays among old IRIs.** -/
theorem climb_append (start : Iri) (steps : Nat) {level : List Iri}
    (hlevel : ∀ iri ∈ level, iri ∈ h.names) (seen : List Iri) :
    climb (h ++ new) start steps level seen = h.climb start steps level seen := by
  -- Each level has old IRIs only, since the one before has and what an old IRI extends is old.
  induction steps generalizing level seen with
  | zero => rfl
  | succ steps ih =>
    have hsame : ∀ iri ∈ fresh seen level, parents (h ++ new) iri = h.parents iri := by
      intro iri hi
      exact parents_append h (hnew iri (hlevel iri (mem_fresh.1 hi).1))
    have hnext : ∀ iri ∈ (fresh seen level).flatMap h.parents, iri ∈ h.names := by
      intro iri hi
      obtain ⟨sub, _, hi⟩ := List.mem_flatMap.1 hi
      exact hr sub iri hi
    simp only [climb, List.flatMap_congr hsame, ih hnext]

theorem ancestors?_append {iri : Iri} (hi : iri ∉ new.names) :
    ancestors? (h ++ new) iri = h.ancestors? iri := by
  -- The bound on the search grows with the hierarchy, but it is never what ends the search.
  have hlonger : h.length < (h ++ new).length + 1 := by
    rw [List.length_append]
    omega
  rw [ancestors?, parents_append h hi, climb_append hr hnew iri _ (hr iri),
    climb_of_lt hr iri hlonger]

/-- **The closure goes on where it ended.** -/
theorem closure_append {table table' : Hierarchy} (hc : h.closure = .ok table)
    (hc' : closure (h ++ new) = .ok table') :
    ∃ rest : Hierarchy, table' = table ++ rest ∧ rest.names = new.names := by
  have hold : h.mapM (searched (h ++ new)) = .ok table := by
    rw [← hc, closure_eq]
    apply mapM_congr
    intro e he
    rw [searched, searched, ancestors?_append hr hnew (hnew e.1 (List.mem_map_of_mem he))]
  have hnames := (closure_entries hc).1
  have hnames' := (closure_entries hc').1
  rw [closure_eq, List.mapM_append] at hc'
  obtain ⟨first, hfirst, hc'⟩ := bind_eq_ok.1 hc'
  obtain ⟨rest, _, hc'⟩ := bind_eq_ok.1 hc'
  cases pure_eq_ok.1 hc'
  cases hold.symm.trans hfirst
  refine ⟨rest, rfl, ?_⟩
  simp only [names, List.map_append] at hnames hnames' ⊢
  rw [hnames] at hnames'
  exact List.append_cancel_left hnames'

theorem closure_kept {table table' : Hierarchy} (hc : h.closure = .ok table)
    (hc' : closure (h ++ new) = .ok table') :
    (∀ iri ∉ new.names, table'.parents iri = table.parents iri) ∧
      ∀ iri, table.below iri <+: table'.below iri := by
  obtain ⟨rest, rfl, hrest⟩ := closure_append hr hnew hc hc'
  constructor
  · intro iri hi
    exact parents_append table (hrest ▸ hi)
  · intro iri
    rw [below_append]
    exact List.prefix_append _ _

end

end Hierarchy

namespace Definitions

theorem classHierarchy_append (a b : Definitions) :
    (a ++ b).classHierarchy = a.classHierarchy ++ b.classHierarchy :=
  List.map_append

theorem propertyHierarchy_append (a b : Definitions) :
    (a ++ b).propertyHierarchy = a.propertyHierarchy ++ b.propertyHierarchy :=
  List.map_append

theorem append_assoc (a b c : Definitions) : a ++ b ++ c = a ++ (b ++ c) :=
  congrArg₂ mk (List.append_assoc ..) (List.append_assoc ..)

end Definitions

/-! ## What is kept -/

/-- A class is as it was, but for more below it. -/
structure ClassInfo.KeptIn (c d : ClassInfo) : Prop where
  iri : d.iri = c.iri
  directSuperclasses : d.directSuperclasses = c.directSuperclasses
  superclasses : d.superclasses = c.superclasses
  subclasses : c.subclasses <+: d.subclasses
  cardinalities : d.cardinalities = c.cardinalities

/-- A property is as it was, but for more below it. -/
structure PropertyInfo.KeptIn (p q : PropertyInfo) : Prop where
  iri : q.iri = p.iri
  directSuperproperties : q.directSuperproperties = p.directSuperproperties
  superproperties : q.superproperties = p.superproperties
  subproperties : p.subproperties <+: q.subproperties
  subjectType : q.subjectType = p.subjectType
  objectType : q.objectType = p.objectType

namespace Ontology

/-- The larger ontology has all that the ontology has, and answers as it does on whatever is not
among the added definitions. -/
structure KeptIn (o larger : Ontology) (added : Definitions) : Prop where
  classes : ∀ c ∈ o.classes, c.iri ∉ added.classes.map (·.iri) ∧
    ∃ d, larger.class? c.iri = some d ∧ c.KeptIn d
  properties : ∀ p ∈ o.properties, p.iri ∉ added.properties.map (·.iri) ∧
    ∃ q, larger.property? p.iri = some q ∧ p.KeptIn q
  isSubclassOf : ∀ sub ∉ added.classes.map (·.iri), ∀ sup,
    larger.isSubclassOf sub sup = o.isSubclassOf sub sup
  isResourceClass : ∀ iri ∉ added.classes.map (·.iri),
    larger.isResourceClass iri = o.isResourceClass iri
  isValueClass : ∀ iri ∉ added.classes.map (·.iri), larger.isValueClass iri = o.isValueClass iri
  cardinality : ∀ class_ ∉ added.classes.map (·.iri), ∀ property,
    larger.cardinality class_ property = o.cardinality class_ property
  isSubpropertyOf : ∀ sub ∉ added.properties.map (·.iri), ∀ sup,
    larger.isSubpropertyOf sub sup = o.isSubpropertyOf sub sup
  isValueProperty : ∀ iri ∉ added.properties.map (·.iri),
    larger.isValueProperty iri = o.isValueProperty iri
  isLinkProperty : ∀ iri ∉ added.properties.map (·.iri),
    larger.isLinkProperty iri = o.isLinkProperty iri

/-! ## Looking up what is kept -/

section
variable {α : Type} {name : α → Iri} {R : α → α → Prop} {as old new : List α}

theorem find?_of_mem (hn : (as.map name).Nodup) {a : α} (ha : a ∈ as) :
    as.find? (name · == name a) = some a := by
  cases hf : as.find? (name · == name a) with
  | none =>
    have := List.find?_eq_none.1 hf a ha
    simp at this
  | some b =>
    have hname : name b = name a := by simpa using List.find?_some hf
    rw [List.inj_on_of_nodup_map hn (List.mem_of_find?_eq_some hf) ha hname]

variable (hR : ∀ a b, R a b → name b = name a) (h : List.Forall₂ R as old)
include hR h

theorem find?_kept_of_mem (hn : ((old ++ new).map name).Nodup) {a : α} (ha : a ∈ as) :
    ∃ b, (old ++ new).find? (name · == name a) = some b ∧ R a b := by
  obtain ⟨b, hb, hab⟩ := exists_of_mem_left h ha
  rw [← hR a b hab]
  exact ⟨b, find?_of_mem hn (List.mem_append_left _ hb), hab⟩

/-- Members that correspond are found under the same names, also where more members with other names
follow. -/
theorem find?_kept {iri : Iri} (hnew : ∀ b ∈ new, name b ≠ iri) :
    as.find? (name · == iri) = none ∧ (old ++ new).find? (name · == iri) = none ∨
    ∃ a b, as.find? (name · == iri) = some a ∧ (old ++ new).find? (name · == iri) = some b ∧
      R a b := by
  induction h with
  | nil => exact .inl ⟨rfl, by simpa using hnew⟩
  | @cons a b _ _ hab _ ih =>
    rw [List.cons_append, List.find?_cons, List.find?_cons, hR a b hab]
    cases name a == iri with
    | true => exact .inr ⟨a, b, rfl, rfl, hab⟩
    | false => exact ih

end

/-! ## Adding definitions -/

theorem readClasses_append (cs ds : List ClassDefinition) {seen : List Iri}
    {cards' : List (OrderedMap Iri Cardinality)} (h : readClasses seen (cs ++ ds) = .ok cards') :
    ∃ cards rest, readClasses seen cs = .ok cards ∧ cards' = cards ++ rest := by
  induction cs generalizing seen cards' with
  | nil => exact ⟨[], cards', rfl, rfl⟩
  | cons c cs ih =>
    obtain ⟨own, hown, h⟩ := bind_eq_ok.1 h
    split at h
    · cases h
    · rename_i hseen
      obtain ⟨later, hlater, h⟩ := bind_eq_ok.1 h
      cases pure_eq_ok.1 h
      obtain ⟨cards, rest, hcards, rfl⟩ := ih hlater
      refine ⟨own :: cards, rest, ?_, rfl⟩
      rw [readClasses, hown]
      simp only [bind, Except.bind, if_neg hseen, hcards]
      rfl

section
variable {a b : Definitions} {o larger : Ontology} (ha : ofDefinitions a = .ok o)
  (hab : ofDefinitions (a ++ b) = .ok larger)
include hab

theorem classes_apart {iri : Iri} (hi : iri ∈ a.classes.map (·.iri)) :
    iri ∉ b.classes.map (·.iri) := by
  obtain ⟨_, _, hb⟩ := built_of_ofDefinitions hab
  have hn := hb.classesOnce
  rw [Definitions.names_classHierarchy] at hn
  exact List.disjoint_of_nodup_append (List.map_append ▸ hn) hi

theorem properties_apart {iri : Iri} (hi : iri ∈ a.properties.map (·.iri)) :
    iri ∉ b.properties.map (·.iri) := by
  obtain ⟨_, _, hb⟩ := built_of_ofDefinitions hab
  have hn := hb.propertiesOnce
  rw [Definitions.names_propertyHierarchy] at hn
  exact List.disjoint_of_nodup_append (List.map_append ▸ hn) hi

include ha

theorem classes_kept : ∃ old new, larger.classes = old ++ new ∧
    List.Forall₂ ClassInfo.KeptIn o.classes old ∧ ∀ d ∈ new, d.iri ∈ b.classes.map (·.iri) := by
  obtain ⟨cards, classes, _, parts⟩ := parts_of_ofDefinitions ha
  obtain ⟨_, classes', _, parts'⟩ := parts_of_ofDefinitions hab
  obtain rfl := parts.made
  obtain rfl := parts'.made
  obtain ⟨first, rest, hread, rfl⟩ := readClasses_append a.classes b.classes parts'.classesRead
  cases parts.classesRead.symm.trans hread
  have hlen := (readClasses_ok parts.classesRead).2.2
  have hnew : ∀ iri ∈ a.classHierarchy.names, iri ∉ b.classHierarchy.names := by
    simpa only [Definitions.names_classHierarchy] using fun _ => classes_apart hab
  obtain ⟨habove, hbelow⟩ :=
    Hierarchy.closure_kept (Hierarchy.rooted_of_orphan parts.classesDefined) hnew
      parts.classesClosed (Definitions.classHierarchy_append a b ▸ parts'.classesClosed)
  -- An old class is put together from the same definition and the same cardinalities, with other
  -- tables.
  refine ⟨_, _, List.zipWith_append hlen.symm, ?_, ?_⟩
  · simp only [← List.map_uncurry_zip_eq_zipWith]
    apply forall₂_map
    rintro ⟨c, own⟩ hc
    have hi : c.iri ∈ a.classHierarchy.names := by
      rw [Definitions.names_classHierarchy]
      exact List.mem_map_of_mem (List.of_mem_zip hc).1
    exact ⟨rfl, rfl, habove c.iri (hnew c.iri hi), hbelow c.iri, rfl⟩
  · intro d hd
    rw [← List.map_uncurry_zip_eq_zipWith] at hd
    obtain ⟨⟨c, own⟩, hc, rfl⟩ := List.mem_map.1 hd
    exact List.mem_map_of_mem (List.of_mem_zip hc).1

theorem properties_kept : ∃ old new, larger.properties = old ++ new ∧
    List.Forall₂ PropertyInfo.KeptIn o.properties old ∧
      ∀ q ∈ new, q.iri ∈ b.properties.map (·.iri) := by
  obtain ⟨_, _, properties, parts⟩ := parts_of_ofDefinitions ha
  obtain ⟨_, _, properties', parts'⟩ := parts_of_ofDefinitions hab
  obtain rfl := parts.made
  obtain rfl := parts'.made
  have hnew : ∀ iri ∈ a.propertyHierarchy.names, iri ∉ b.propertyHierarchy.names := by
    simpa only [Definitions.names_propertyHierarchy] using fun _ => properties_apart hab
  obtain ⟨habove, hbelow⟩ := Hierarchy.closure_kept
    (Hierarchy.rooted_of_orphan parts.propertiesDefined) hnew parts.propertiesClosed
    (Definitions.propertyHierarchy_append a b ▸ parts'.propertiesClosed)
  refine ⟨_, _, List.map_append, ?_, ?_⟩
  · apply forall₂_map
    intro p hp
    have hi : p.iri ∈ a.propertyHierarchy.names := by
      rw [Definitions.names_propertyHierarchy]
      exact List.mem_map_of_mem hp
    exact ⟨rfl, rfl, habove p.iri (hnew p.iri hi), hbelow p.iri, rfl, rfl⟩
  · intro q hq
    obtain ⟨p, hp, rfl⟩ := List.mem_map.1 hq
    exact List.mem_map_of_mem hp

theorem class_kept {c : ClassInfo} (hc : c ∈ o.classes) :
    ∃ d, larger.class? c.iri = some d ∧ c.KeptIn d := by
  obtain ⟨_, _, hb⟩ := built_of_ofDefinitions hab
  obtain ⟨old, new, heq, hold, _⟩ := classes_kept ha hab
  have hn := hb.classesOnce
  rw [Definitions.names_classHierarchy, ← hb.classNames, heq] at hn
  rw [class?, heq]
  exact find?_kept_of_mem (fun _ _ hcd => hcd.iri) hold hn hc

theorem property_kept {p : PropertyInfo} (hp : p ∈ o.properties) :
    ∃ q, larger.property? p.iri = some q ∧ p.KeptIn q := by
  obtain ⟨_, _, hb⟩ := built_of_ofDefinitions hab
  obtain ⟨old, new, heq, hold, _⟩ := properties_kept ha hab
  have hn := hb.propertiesOnce
  rw [Definitions.names_propertyHierarchy, ← hb.propertyNames, heq] at hn
  rw [property?, heq]
  exact find?_kept_of_mem (fun _ _ hpq => hpq.iri) hold hn hp

/-- **A class is looked up as before**, if it is not among the added ones. -/
theorem class?_kept {iri : Iri} (hi : iri ∉ b.classes.map (·.iri)) :
    o.class? iri = none ∧ larger.class? iri = none ∨
    ∃ c d, o.class? iri = some c ∧ larger.class? iri = some d ∧ c.KeptIn d := by
  obtain ⟨old, new, heq, hold, hnew⟩ := classes_kept ha hab
  unfold class?
  rw [heq]
  apply find?_kept (fun _ _ hcd => hcd.iri) hold
  rintro d hd rfl
  exact hi (hnew d hd)

/-- **A property is looked up as before**, if it is not among the added ones. -/
theorem property?_kept {iri : Iri} (hi : iri ∉ b.properties.map (·.iri)) :
    o.property? iri = none ∧ larger.property? iri = none ∨
    ∃ p q, o.property? iri = some p ∧ larger.property? iri = some q ∧ p.KeptIn q := by
  obtain ⟨old, new, heq, hold, hnew⟩ := properties_kept ha hab
  unfold property?
  rw [heq]
  apply find?_kept (fun _ _ hpq => hpq.iri) hold
  rintro q hq rfl
  exact hi (hnew q hq)

theorem superclasses_kept {iri : Iri} (hi : iri ∉ b.classes.map (·.iri)) :
    larger.superclasses iri = o.superclasses iri := by
  unfold superclasses
  obtain ⟨hc, hd⟩ | ⟨c, d, hc, hd, hcd⟩ := class?_kept ha hab hi
  · rw [hc, hd]
  · simp only [hc, hd, hcd.superclasses]

theorem superproperties_kept {iri : Iri} (hi : iri ∉ b.properties.map (·.iri)) :
    larger.superproperties iri = o.superproperties iri := by
  unfold superproperties
  obtain ⟨hp, hq⟩ | ⟨p, q, hp, hq, hpq⟩ := property?_kept ha hab hi
  · rw [hp, hq]
  · simp only [hp, hq, hpq.superproperties]

theorem isSome_class?_kept {iri : Iri} (hi : iri ∉ b.classes.map (·.iri)) :
    (larger.class? iri).isSome = (o.class? iri).isSome := by
  obtain ⟨hc, hd⟩ | ⟨c, d, hc, hd, _⟩ := class?_kept ha hab hi
  · rw [hc, hd]
  · rw [hc, hd, Option.isSome_some, Option.isSome_some]

theorem isSome_property?_kept {iri : Iri} (hi : iri ∉ b.properties.map (·.iri)) :
    (larger.property? iri).isSome = (o.property? iri).isSome := by
  obtain ⟨hp, hq⟩ | ⟨p, q, hp, hq, _⟩ := property?_kept ha hab hi
  · rw [hp, hq]
  · rw [hp, hq, Option.isSome_some, Option.isSome_some]

theorem own?_kept {iri : Iri} (hi : iri ∉ b.classes.map (·.iri)) (property : Iri) :
    larger.own? iri property = o.own? iri property := by
  unfold own?
  obtain ⟨hc, hd⟩ | ⟨c, d, hc, hd, hcd⟩ := class?_kept ha hab hi
  · rw [hc, hd]
  · rw [hc, hd, Option.bind_some, Option.bind_some, hcd.cardinalities]

/-- What is above an old class is old, so all that a cardinality can come from is as it was. -/
theorem cardinality_kept {class_ : Iri} (hi : class_ ∉ b.classes.map (·.iri)) (property : Iri) :
    larger.cardinality class_ property = o.cardinality class_ property := by
  have hsame : ∀ iri ∈ class_ :: o.superclasses class_,
      larger.own? iri property = o.own? iri property := by
    intro iri hmem
    apply own?_kept ha hab
    cases hmem with
    | head => exact hi
    | tail _ habove =>
      obtain ⟨_, hchain⟩ := (mem_superclasses_iff ha).1 habove
      obtain ⟨_, _, hb⟩ := built_of_ofDefinitions ha
      apply classes_apart hab
      rw [← Definitions.names_classHierarchy]
      exact hb.classesRooted.chain_ends hchain
  rw [cardinality_eq_findSome?, cardinality_eq_findSome?, superclasses_kept ha hab hi,
    ← List.head?_filterMap, ← List.head?_filterMap, List.filterMap_congr hsame]

/-- **An ontology is kept when definitions are added.** -/
theorem keptIn_of_append : o.KeptIn larger b := by
  obtain ⟨_, _, hb⟩ := built_of_ofDefinitions ha
  constructor
  · intro c hc
    exact ⟨classes_apart hab (hb.classNames ▸ List.mem_map_of_mem hc), class_kept ha hab hc⟩
  · intro p hp
    exact ⟨properties_apart hab (hb.propertyNames ▸ List.mem_map_of_mem hp),
      property_kept ha hab hp⟩
  · intro sub hi sup
    rw [isSubclassOf, isSubclassOf, superclasses_kept ha hab hi]
  · intro iri hi
    rw [isResourceClass, isResourceClass, isSubclassOf, isSubclassOf, superclasses_kept ha hab hi,
      isSome_class?_kept ha hab hi]
  · intro iri hi
    rw [isValueClass, isValueClass, isSubclassOf, isSubclassOf, superclasses_kept ha hab hi,
      isSome_class?_kept ha hab hi]
  · intro class_ hi property
    exact cardinality_kept ha hab hi property
  · intro sub hi sup
    rw [isSubpropertyOf, isSubpropertyOf, superproperties_kept ha hab hi]
  · intro iri hi
    rw [isValueProperty, isValueProperty, isSubpropertyOf, isSubpropertyOf,
      superproperties_kept ha hab hi, isSome_property?_kept ha hab hi]
  · intro iri hi
    rw [isLinkProperty, isLinkProperty, isSubpropertyOf, isSubpropertyOf,
      superproperties_kept ha hab hi, isSome_property?_kept ha hab hi]

end

/-! ## The skeleton -/

section
variable {defs : Definitions} {o : Ontology} (h : build defs = .ok o)
include h

theorem keptIn_of_build {added : Definitions} {larger : Ontology}
    (hlarger : build (defs ++ added) = .ok larger) : o.KeptIn larger added := by
  apply keptIn_of_append h
  rw [Definitions.append_assoc]
  exact hlarger

/-- A property to link values is one to values, since the skeleton has it so for the topmost one. -/
theorem isValueProperty_of_isLinkValueProperty {iri : Iri} (hl : o.isLinkValueProperty iri = true) :
    o.isValueProperty iri = true := by
  obtain ⟨_, _, hb⟩ := built_of_ofDefinitions h
  have hexact := properties_exact h
  obtain ⟨hdefined, hbelow⟩ := Bool.and_eq_true_iff.1 hl
  have hmem : (Base.hasLinkToValue, [Base.hasValue]) ∈
      (Definitions.skeleton ++ defs).propertyHierarchy := by
    rw [Definitions.propertyHierarchy_append]
    apply List.mem_append_left
    simp [Definitions.propertyHierarchy, Definitions.skeleton]
  have hparent : Base.hasValue ∈
      (Definitions.skeleton ++ defs).propertyHierarchy.parents Base.hasLinkToValue := by
    rw [Hierarchy.parents_of_mem hb.propertiesOnce hmem]
    exact List.mem_singleton_self _
  have hlink : o.isSubpropertyOf Base.hasLinkToValue Base.hasValue = true :=
    (hexact.isBelow_iff _ _).2 (.inr ((hexact.above_iff _ _).2 ⟨1, .parent hparent⟩))
  exact Bool.and_eq_true_iff.2 ⟨hdefined, hexact.isBelow_trans _ _ _ hbelow hlink⟩

end

end Ontology

/-- **Ontologies extend conservatively.** Whatever definitions are added to those of an ontology, if
all together make an ontology again, it keeps the classes and properties of the first as they are,
but for what is below them, which goes on where it ended. Questions about classes have the same
answers on every IRI that is not among the added classes, and questions about properties on every
IRI that is not among the added properties. So every ontology keeps the classes and properties of
the skeleton, and in every ontology the properties to link values are properties to values. -/
theorem extension_conservative {defs : Definitions} {o : Ontology}
    (hbuild : Ontology.build defs = .ok o) :
    (∀ added larger, Ontology.build (defs ++ added) = .ok larger → o.KeptIn larger added) ∧
    (∃ base, Ontology.base = .ok base ∧ base.KeptIn o defs) ∧
    ∀ iri, o.isLinkValueProperty iri = true → o.isValueProperty iri = true := by
  refine ⟨fun _ _ => Ontology.keptIn_of_build hbuild, ?_,
    fun _ => Ontology.isValueProperty_of_isLinkValueProperty hbuild⟩
  obtain ⟨base, hbase⟩ := Ontology.build_skeleton
  exact ⟨base, hbase, Ontology.keptIn_of_build hbase hbuild⟩

/-- Villas and gardens are added to houses, and addresses to names. -/
theorem extension_conservative_houses :
    let house : Iri := "http://www.knora.org/ontology/0001/house#House"
    let villa : Iri := "http://www.knora.org/ontology/0001/house#Villa"
    let garden : Iri := "http://www.knora.org/ontology/0001/house#Garden"
    let hasName : Iri := "http://www.knora.org/ontology/0001/house#hasName"
    let hasAddress : Iri := "http://www.knora.org/ontology/0001/house#hasAddress"
    let defs : Definitions :=
      { classes := [⟨house, [Base.resource], .ofList [(hasName, "1")]⟩]
        properties := [⟨hasName, [Base.hasValue], some house, some Base.textValue⟩] }
    let added : Definitions :=
      { classes :=
          [⟨villa, [house], .ofList [(hasAddress, "0-1")]⟩, ⟨garden, [Base.resource], .empty⟩]
        properties := [⟨hasAddress, [hasName], none, none⟩] }
    ∃ o larger, Ontology.build defs = .ok o ∧ Ontology.build (defs ++ added) = .ok larger ∧
      o.subclasses Base.resource = [house] ∧
      larger.subclasses Base.resource = [house, villa, garden] ∧
      larger.subproperties hasName = [hasAddress] ∧
      o.KeptIn larger added ∧
      (∃ base, Ontology.base = .ok base ∧ base.KeptIn o defs) ∧
      o.isLinkValueProperty Base.hasLinkToValue = true ∧
        o.isValueProperty Base.hasLinkToValue = true := by
  intro house villa garden hasName hasAddress defs added
  have hrun : ((Ontology.build defs).toOption.map fun o => decide (
      o.subclasses Base.resource = [house] ∧ o.isLinkValueProperty Base.hasLinkToValue = true)) =
        some true := by
    decide +kernel
  have hrun' : ((Ontology.build (defs ++ added)).toOption.map fun o => decide (
      o.subclasses Base.resource = [house, villa, garden] ∧
        o.subproperties hasName = [hasAddress])) = some true := by
    decide +kernel
  obtain ⟨o, hbuild, hbelow, hlink⟩ := Ontology.exists_built hrun
  obtain ⟨larger, hlarger, hbelow', hnames⟩ := Ontology.exists_built hrun'
  obtain ⟨hkept, hbase, hvalue⟩ := extension_conservative hbuild
  exact ⟨o, larger, hbuild, hlarger, hbelow, hbelow', hnames, hkept added larger hlarger,
    hbase, hlink, hvalue _ hlink⟩

/-- A property of the skeleton can be defined as a class as well: then it is a resource class, which
it was not before, and has cardinalities. -/
theorem property_becomes_class :
    let added : Definitions := { classes := [⟨Base.hasValue, [Base.resource], .empty⟩] }
    ∃ base o, Ontology.base = .ok base ∧ Ontology.build ({} ++ added) = .ok o ∧
      (base.property? Base.hasValue).isSome = true ∧
      base.isResourceClass Base.hasValue = false ∧ o.isResourceClass Base.hasValue = true ∧
      base.isSubclassOf Base.hasValue Base.resource = false ∧
      o.isSubclassOf Base.hasValue Base.resource = true ∧
      base.cardinality Base.hasValue Rdfs.label = none ∧
      o.cardinality Base.hasValue Rdfs.label = some .mustHaveOne := by
  intro added
  have hrun : ((Ontology.build {}).toOption.map fun base => decide (
      (base.property? Base.hasValue).isSome = true ∧ base.isResourceClass Base.hasValue = false ∧
      base.isSubclassOf Base.hasValue Base.resource = false ∧
      base.cardinality Base.hasValue Rdfs.label = none)) = some true := by
    decide +kernel
  have hrun' : ((Ontology.build ({} ++ added)).toOption.map fun o => decide (
      o.isResourceClass Base.hasValue = true ∧ o.isSubclassOf Base.hasValue Base.resource = true ∧
      o.cardinality Base.hasValue Rdfs.label = some .mustHaveOne)) = some true := by
    decide +kernel
  obtain ⟨base, hbase, hproperty, hnot, hapart, hnone⟩ := Ontology.exists_built hrun
  obtain ⟨o, hbuild, hclass, hbelow, hlabel⟩ := Ontology.exists_built hrun'
  exact ⟨base, o, hbase, hbuild, hproperty, hnot, hclass, hapart, hbelow, hnone, hlabel⟩

end OntoQuery
