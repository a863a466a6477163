import OntoQuery.Proofs.Subsumption

/-!
# The tables of a hierarchy are exact

An ontology lists for each class and each property what is above and what is below it. Here it is
proved what these lists hold and in which order (`Hierarchy.Exact`, `hierarchy_closures_exact`):
what is above comes by the length of the shortest chain, and what is below in order of definition.
The test for subsumption is an order on all IRIs, known or not.

The search upwards goes level by level. After `n` levels it has seen exactly what is reached by at
most `n` steps, nearest first (`Hierarchy.Levelled`).
-/

namespace OntoQuery

namespace Hierarchy

/-- The shortest chains from `start` to the IRI have this many steps. -/
structure Shortest (h : Hierarchy) (start : Iri) (n : Nat) (iri : Iri) : Prop where
  chain : h.Chain start n iri
  least : ∀ m, h.Chain start m iri → n ≤ m

/-- What is above and below each IRI, and whether one is below another, are told as the hierarchy
has it. -/
structure Exact (h : Hierarchy) (above below : Iri → List Iri)
    (isBelow : Iri → Iri → Bool) : Prop where
  /-- Above an IRI is what a chain of direct parents leads to. -/
  above_iff : ∀ iri other, other ∈ above iri ↔ ∃ n, h.Chain iri n other
  above_nodup : ∀ iri, (above iri).Nodup
  above_irrefl : ∀ iri, iri ∉ above iri
  /-- What is nearer comes first. -/
  above_sorted : ∀ iri, (above iri).Pairwise fun a b =>
    ∃ m n, h.Shortest iri m a ∧ h.Shortest iri n b ∧ m ≤ n
  /-- Below an IRI are those that it is above, in order of definition. -/
  below_eq : ∀ iri, below iri = h.names.filter fun sub => iri ∈ above sub
  below_nodup : ∀ iri, (below iri).Nodup
  isBelow_iff : ∀ sub sup, isBelow sub sup = true ↔ sub = sup ∨ sup ∈ above sub
  isBelow_refl : ∀ iri, isBelow iri iri = true
  isBelow_trans : ∀ a b c, isBelow a b = true → isBelow b c = true → isBelow a c = true
  isBelow_antisymm : ∀ a b, isBelow a b = true → isBelow b a = true → a = b

/-! ## Level by level -/

theorem Chain.pos {h : Hierarchy} {start iri : Iri} {n : Nat} (hc : h.Chain start n iri) :
    0 < n := by
  cases hc with
  | parent => omega
  | step => omega

/-- What holds when the search from `start` comes to its level `n + 1`. -/
structure Levelled (h : Hierarchy) (start : Iri) (n : Nat) (level seen : List Iri) : Prop where
  reached : ∀ iri ∈ level, h.Chain start (n + 1) iri
  nearer : ∀ iri ∈ seen, ∃ m ≤ n, h.Shortest start m iri
  covered : ∀ m ≤ n, ∀ iri, h.Chain start m iri → iri ∈ seen
  next : ∀ iri, h.Chain start (n + 1) iri → iri ∈ seen ∨ iri ∈ level
  sorted : seen.Pairwise fun a b => ∃ m n, h.Shortest start m a ∧ h.Shortest start n b ∧ m ≤ n

theorem levelled_parents (h : Hierarchy) (start : Iri) :
    h.Levelled start 0 (h.parents start) [] where
  reached iri hi := .parent hi
  nearer iri hi := by cases hi
  covered m hm iri hc := by
    have hpos := hc.pos
    omega
  next iri hc := by
    cases hc with
    | parent hp => exact .inr hp
    | step hc _ =>
      have hpos := hc.pos
      omega
  sorted := .nil

section
variable {h : Hierarchy} {start : Iri} {n : Nat} {level seen : List Iri}

/-- What is new in a level is reached by no shorter chain. -/
theorem Levelled.shortest (hl : h.Levelled start n level seen) {iri : Iri}
    (hi : iri ∈ fresh seen level) : h.Shortest start (n + 1) iri := by
  obtain ⟨hlevel, hnew⟩ := mem_fresh.1 hi
  constructor
  · exact hl.reached iri hlevel
  · intro m hc
    by_contra hlt
    apply hnew
    exact hl.covered m (by omega) iri hc

theorem Levelled.step (hl : h.Levelled start n level seen) :
    h.Levelled start (n + 1) ((fresh seen level).flatMap h.parents) (seen ++ fresh seen level) := by
  have old : ∀ iri, iri ∈ seen ∨ iri ∈ level → iri ∈ seen ++ fresh seen level := by
    intro iri hi
    by_cases hm : iri ∈ seen
    · exact List.mem_append_left _ hm
    · exact List.mem_append_right _ (mem_fresh.2 ⟨hi.resolve_left hm, hm⟩)
  have covered : ∀ m ≤ n + 1, ∀ iri, h.Chain start m iri → iri ∈ seen ++ fresh seen level := by
    intro m hm iri hc
    apply old
    by_cases heq : m = n + 1
    · subst heq
      exact hl.next iri hc
    · exact .inl (hl.covered m (by omega) iri hc)
  have nearer : ∀ iri ∈ seen ++ fresh seen level, ∃ m ≤ n + 1, h.Shortest start m iri := by
    intro iri hi
    cases List.mem_append.1 hi with
    | inl hseen =>
      obtain ⟨m, hm, hs⟩ := hl.nearer iri hseen
      exact ⟨m, by omega, hs⟩
    | inr hnew => exact ⟨n + 1, Nat.le_refl _, hl.shortest hnew⟩
  constructor
  · intro iri hi
    obtain ⟨below, hb, hp⟩ := List.mem_flatMap.1 hi
    exact .step (hl.shortest hb).chain hp
  · exact nearer
  · exact covered
  · intro iri hc
    cases hc with
    | step hc hp =>
      -- The step before the last one ends in what was seen, and then the whole chain can be
      -- shorter.
      rename_i below
      by_cases hb : below ∈ fresh seen level
      · exact .inr (List.mem_flatMap.2 ⟨below, hb, hp⟩)
      · have hseen : below ∈ seen := by
          have hold := old below (hl.next below hc)
          exact (List.mem_append.1 hold).resolve_right hb
        obtain ⟨m, hm, hs⟩ := hl.nearer below hseen
        exact .inl (covered (m + 1) (by omega) iri (.step hs.chain hp))
  · apply List.pairwise_append.2
    refine ⟨hl.sorted, ?_, ?_⟩
    · apply List.Pairwise.imp_of_mem (R := fun _ _ => True)
      · intro a b ha hb _
        exact ⟨n + 1, n + 1, hl.shortest ha, hl.shortest hb, Nat.le_refl _⟩
      · exact List.pairwise_of_forall fun _ _ => trivial
    · intro a ha b hb
      obtain ⟨m, hm, hs⟩ := hl.nearer a ha
      exact ⟨m, n + 1, hs, hl.shortest hb, by omega⟩

end

/-- **The search upwards finds what is nearer first.** -/
theorem ancestors_sorted {h : Hierarchy} (hr : h.Rooted) {iri : Iri} {found : List Iri}
    (hf : h.ancestors? iri = some found) :
    found.Pairwise fun a b => ∃ m n, h.Shortest iri m a ∧ h.Shortest iri n b ∧ m ≤ n := by
  have hend : h.Searched iri [] found ∧ ∃ n, h.Levelled iri n [] found := by
    apply climb_some
      (P := fun level seen => h.Searched iri level seen ∧ ∃ n, h.Levelled iri n level seen)
      _ _ _ _ hf
    · rintro level seen ⟨hs, n, hl⟩ hstart
      exact ⟨hs.next hstart, n + 1, hl.step⟩
    · rintro level seen ⟨hs, _⟩
      exact hs.seen_le hr
    · exact ⟨h.searched_parents iri, 0, h.levelled_parents iri⟩
    · exact .inr (by simp)
  obtain ⟨_, n, hl⟩ := hend
  exact hl.sorted

/-! ## The closure -/

section
variable {h table : Hierarchy} (hn : h.names.Nodup) (hr : h.Rooted) (hc : h.closure = .ok table)
include hn hc

/-- The closure lists for an IRI what the search finds, and nothing for one without an entry. -/
theorem closure_parents (iri : Iri) :
    table.parents iri = [] ∨ h.ancestors? iri = some (table.parents iri) := by
  obtain ⟨hnames, hentries⟩ := closure_entries hc
  by_cases hi : iri ∈ table.names
  · obtain ⟨⟨_, found⟩, he, rfl⟩ := List.mem_map.1 hi
    right
    rw [parents_of_mem (hnames ▸ hn) he]
    exact hentries _ he
  · exact .inl (parents_of_not_mem hi)

theorem below_eq_filter (iri : Iri) :
    table.below iri = h.names.filter fun sub => iri ∈ table.parents sub := by
  obtain ⟨hnames, _⟩ := closure_entries hc
  have hlisted : ∀ e ∈ table, decide (iri ∈ e.2) = decide (iri ∈ table.parents e.1) := by
    intro e he
    rw [parents_of_mem (hnames ▸ hn) he]
  rw [← hnames, names, List.filter_map, below, List.filter_congr hlisted]
  rfl

include hr

/-- **The closure of a hierarchy is exact.** -/
theorem closure_exact : h.Exact table.parents table.below
    fun sub sup => sub == sup || (table.parents sub).contains sup := by
  have above_iff : ∀ iri other, other ∈ table.parents iri ↔ ∃ n, h.Chain iri n other :=
    fun iri other => mem_closure_parents hn hr hc
  have above_irrefl : ∀ iri, iri ∉ table.parents iri := by
    intro iri
    cases closure_parents hn hc iri with
    | inl hempty => simp [hempty]
    | inr hf => exact (ancestors_searched hr hf).apart
  have above_trans : ∀ a b c, b ∈ table.parents a → c ∈ table.parents b → c ∈ table.parents a := by
    intro a b c hab hbc
    rw [above_iff] at hab hbc ⊢
    obtain ⟨m, hab⟩ := hab
    obtain ⟨n, hbc⟩ := hbc
    exact ⟨m + n, hab.trans hbc⟩
  have isBelow_iff : ∀ sub sup, (sub == sup || (table.parents sub).contains sup) = true ↔
      sub = sup ∨ sup ∈ table.parents sub := by
    intro sub sup
    simp
  constructor
  · exact above_iff
  · intro iri
    cases closure_parents hn hc iri with
    | inl hempty => simp [hempty]
    | inr hf => exact (ancestors_searched hr hf).nodup
  · exact above_irrefl
  · intro iri
    cases closure_parents hn hc iri with
    | inl hempty => simp [hempty]
    | inr hf => exact ancestors_sorted hr hf
  · exact below_eq_filter hn hc
  · intro iri
    rw [below_eq_filter hn hc]
    exact hn.filter _
  · exact isBelow_iff
  · intro iri
    simp
  · intro a b c hab hbc
    rw [isBelow_iff] at hab hbc ⊢
    cases hab with
    | inl hab => exact hab ▸ hbc
    | inr hab =>
      cases hbc with
      | inl hbc => exact .inr (hbc ▸ hab)
      | inr hbc => exact .inr (above_trans a b c hab hbc)
  · intro a b hab hba
    rw [isBelow_iff] at hab hba
    cases hab with
    | inl hab => exact hab
    | inr hab =>
      cases hba with
      | inl hba => exact hba.symm
      | inr hba => exact absurd (above_trans a b a hab hba) (above_irrefl a)

end

end Hierarchy

/-! ## Classes and properties -/

namespace Ontology

section
variable {defs : Definitions} {o : Ontology} (h : ofDefinitions defs = .ok o)
include h

theorem classes_exact :
    defs.classHierarchy.Exact o.superclasses o.subclasses o.isSubclassOf := by
  obtain ⟨classes, properties, hb⟩ := built_of_ofDefinitions h
  have habove : o.superclasses = classes.parents := funext hb.superclasses_eq
  have hbelow : o.subclasses = classes.below := funext hb.subclasses_eq
  have htest : o.isSubclassOf =
      fun sub sup => sub == sup || (classes.parents sub).contains sup := by
    funext sub sup
    rw [isSubclassOf, habove]
  rw [habove, hbelow, htest]
  exact Hierarchy.closure_exact hb.classesOnce hb.classesRooted hb.classesClosed

theorem properties_exact :
    defs.propertyHierarchy.Exact o.superproperties o.subproperties o.isSubpropertyOf := by
  obtain ⟨classes, properties, hb⟩ := built_of_ofDefinitions h
  have habove : o.superproperties = properties.parents := funext hb.superproperties_eq
  have hbelow : o.subproperties = properties.below := funext hb.subproperties_eq
  have htest : o.isSubpropertyOf =
      fun sub sup => sub == sup || (properties.parents sub).contains sup := by
    funext sub sup
    rw [isSubpropertyOf, habove]
  rw [habove, hbelow, htest]
  exact Hierarchy.closure_exact hb.propertiesOnce hb.propertiesRooted hb.propertiesClosed

end

end Ontology

/-- **The tables of an ontology are exact.** Whatever the definitions that an ontology is built
from, its classes and its properties are listed above and below one another as chains of what they
directly extend have it, nearest first above and in order of definition below, and the tests for
subsumption are orders. -/
theorem hierarchy_closures_exact {defs : Definitions} {o : Ontology}
    (hbuild : Ontology.build defs = .ok o) :
    (Definitions.skeleton ++ defs).classHierarchy.Exact o.superclasses o.subclasses o.isSubclassOf ∧
    (Definitions.skeleton ++ defs).propertyHierarchy.Exact o.superproperties o.subproperties
      o.isSubpropertyOf :=
  ⟨Ontology.classes_exact hbuild, Ontology.properties_exact hbuild⟩

/-- A class that extends another both directly and by way of two more, defined before all of
them. -/
theorem hierarchy_closures_exact_shortcut :
    let villa : Iri := "http://www.knora.org/ontology/0001/house#Villa"
    let house : Iri := "http://www.knora.org/ontology/0001/house#House"
    let dwelling : Iri := "http://www.knora.org/ontology/0001/house#Dwelling"
    let building : Iri := "http://www.knora.org/ontology/0001/house#Building"
    let hasName : Iri := "http://www.knora.org/ontology/0001/house#hasName"
    let defs : Definitions :=
      { classes := [⟨villa, [house, building], .empty⟩, ⟨house, [dwelling], .empty⟩,
          ⟨dwelling, [building], .empty⟩, ⟨building, [Base.resource], .empty⟩]
        properties := [⟨hasName, [Base.hasValue], none, none⟩] }
    ∃ o, Ontology.build defs = .ok o ∧
      o.superclasses villa = [house, building, dwelling, Base.resource] ∧
      o.subclasses building = [villa, house, dwelling] ∧
      o.subproperties Base.hasValue = [Base.hasLinkToValue, hasName] ∧
      (Definitions.skeleton ++ defs).classHierarchy.Exact o.superclasses o.subclasses
        o.isSubclassOf ∧
      (Definitions.skeleton ++ defs).propertyHierarchy.Exact o.superproperties o.subproperties
        o.isSubpropertyOf := by
  intro villa house dwelling building hasName defs
  have hrun : ((Ontology.build defs).toOption.map fun o => decide (
      o.superclasses villa = [house, building, dwelling, Base.resource] ∧
      o.subclasses building = [villa, house, dwelling] ∧
      o.subproperties Base.hasValue = [Base.hasLinkToValue, hasName])) = some true := by
    decide +kernel
  obtain ⟨o, hbuild, habove, hbelow, hvalues⟩ := Ontology.exists_built hrun
  exact ⟨o, hbuild, habove, hbelow, hvalues, hierarchy_closures_exact hbuild⟩

end OntoQuery
