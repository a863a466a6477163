import Mathlib.Data.List.Nodup
import OntoQuery.Proofs.Closure

/-!
# Constraints that properties inherit

What the search for an inherited constraint rests on. Types that there are have a most specific one,
or two of them are unrelated (`Ontology.meet_ne_nothing`). Each step up leads to fewer properties
above (`Ontology.superproperties_lt`), and there are never more of them than the search has steps
(`Ontology.superproperties_lt_properties`).
-/

namespace OntoQuery

/-- A chain starts with a step to a direct parent. -/
theorem Hierarchy.Chain.first {h : Hierarchy} {start iri : Iri} {n : Nat}
    (hc : h.Chain start n iri) :
    ∃ parent ∈ h.parents start, parent = iri ∨ ∃ m, h.Chain parent m iri := by
  induction hc with
  | parent hp => exact ⟨_, hp, .inl rfl⟩
  | step _ hp ih =>
    obtain ⟨parent, hparent, hrest⟩ := ih
    refine ⟨parent, hparent, .inr ?_⟩
    cases hrest with
    | inl heq => exact ⟨1, .parent (heq ▸ hp)⟩
    | inr hrest =>
      obtain ⟨m, hm⟩ := hrest
      exact ⟨m + 1, .step hm hp⟩

/-- Of finitely many members of which any two are related, one is related to all. -/
theorem exists_related_to_all {α : Type} {r : α → α → Prop}
    (htrans : ∀ a b c, r a b → r b c → r a c) {as : List α} (hne : as ≠ [])
    (htotal : ∀ a ∈ as, ∀ b ∈ as, r a b ∨ r b a) : ∃ a ∈ as, ∀ b ∈ as, r a b := by
  induction as with
  | nil => exact absurd rfl hne
  | cons a as ih =>
    have hself : r a a := (htotal a List.mem_cons_self a List.mem_cons_self).elim id id
    by_cases hempty : as = []
    · exact ⟨a, List.mem_cons_self, by simpa [hempty] using hself⟩
    · obtain ⟨least, hleast, hall⟩ := ih hempty fun b hb c hc =>
        htotal b (List.mem_cons_of_mem _ hb) c (List.mem_cons_of_mem _ hc)
      cases htotal a List.mem_cons_self least (List.mem_cons_of_mem _ hleast) with
      | inl hless =>
        refine ⟨a, List.mem_cons_self, List.forall_mem_cons.2 ⟨hself, ?_⟩⟩
        exact fun b hb => htrans a least b hless (hall b hb)
      | inr hless =>
        exact ⟨least, List.mem_cons_of_mem _ hleast, List.forall_mem_cons.2 ⟨hless, hall⟩⟩

namespace Ontology

section
variable {defs : Definitions} {o : Ontology} (h : ofDefinitions defs = .ok o)
include h

/-- Types that there are have a most specific one, or two of them are unrelated. -/
theorem meet_ne_nothing {types : List Iri} (hne : types ≠ []) : o.meet types ≠ .nothing := by
  intro hmeet
  unfold meet at hmeet
  cases hfind : types.find? fun a => types.all (o.isSubclassOf a ·) with
  | some type => simp [hfind] at hmeet
  | none =>
    rw [hfind] at hmeet
    have hrelated : ∀ a ∈ types, ∀ b ∈ types,
        o.isSubclassOf a b = true ∨ o.isSubclassOf b a = true := by
      intro a ha b hb
      by_contra hnot
      have hpair : (a, b) ∈ types.flatMap fun a =>
          (types.filter fun b => !o.isSubclassOf a b && !o.isSubclassOf b a).map (a, ·) := by
        apply List.mem_flatMap.2
        exact ⟨a, ha, List.mem_map.2 ⟨b, List.mem_filter.2 ⟨hb, by simpa using hnot⟩, rfl⟩⟩
      dsimp only at hmeet
      split at hmeet
      · cases hmeet
      · rename_i hnil
        rw [hnil] at hpair
        cases hpair
    obtain ⟨least, hleast, hall⟩ :=
      exists_related_to_all (classes_exact h).isBelow_trans hne hrelated
    exact List.find?_eq_none.1 hfind least hleast (by simpa using hall)

/-- What is known of a property is what its definition says. -/
theorem defined_of_property? {iri : Iri} {p : PropertyInfo} (hp : o.property? iri = some p) :
    ∃ d ∈ defs.properties, d.iri = iri ∧ p.directSuperproperties = d.superproperties ∧
      p.subjectType = d.subjectType ∧ p.objectType = d.objectType := by
  have hiri : p.iri = iri := by simpa using List.find?_some hp
  have hmem := List.mem_of_find?_eq_some hp
  obtain ⟨_, _, _, parts⟩ := parts_of_ofDefinitions h
  obtain rfl := parts.made
  obtain ⟨d, hd, rfl⟩ := List.mem_map.1 hmem
  exact ⟨d, hd, hiri, rfl, rfl, rfl⟩

theorem directSuperproperties_eq {iri : Iri} {p : PropertyInfo} (hp : o.property? iri = some p) :
    p.directSuperproperties = defs.propertyHierarchy.parents iri := by
  obtain ⟨d, hd, rfl, hdirect, _⟩ := defined_of_property? h hp
  obtain ⟨_, _, hb⟩ := built_of_ofDefinitions h
  rw [hdirect]
  exact (Hierarchy.parents_of_mem hb.propertiesOnce (List.mem_map.2 ⟨d, hd, rfl⟩)).symm

/-- Fewer properties are above a direct superproperty. -/
theorem superproperties_lt {iri parent : Iri} (hp : parent ∈ defs.propertyHierarchy.parents iri) :
    (o.superproperties parent).length < (o.superproperties iri).length := by
  have hexact := properties_exact h
  have hnodup : (parent :: o.superproperties parent).Nodup :=
    List.nodup_cons.2 ⟨hexact.above_irrefl parent, hexact.above_nodup parent⟩
  have hsub : parent :: o.superproperties parent ⊆ o.superproperties iri := by
    intro above ha
    rw [hexact.above_iff]
    cases ha with
    | head => exact ⟨1, .parent hp⟩
    | tail _ ha =>
      obtain ⟨n, hchain⟩ := (hexact.above_iff parent above).1 ha
      exact ⟨1 + n, Hierarchy.Chain.trans (.parent hp) hchain⟩
  exact (List.subperm_of_subset hnodup hsub).length_le

/-- Fewer properties are above a property than there are. -/
theorem superproperties_lt_properties {iri : Iri} (hiri : (o.property? iri).isSome = true) :
    (o.superproperties iri).length < o.properties.length := by
  have hexact := properties_exact h
  have hnodup : (iri :: o.superproperties iri).Nodup :=
    List.nodup_cons.2 ⟨hexact.above_irrefl iri, hexact.above_nodup iri⟩
  have hdefined : ∀ {other : Iri}, (o.property? other).isSome = true →
      other ∈ o.properties.map (·.iri) := by
    intro other hother
    obtain ⟨p, hp⟩ := Option.isSome_iff_exists.1 hother
    have hname : p.iri = other := by simpa using List.find?_some hp
    exact hname ▸ List.mem_map_of_mem (List.mem_of_find?_eq_some hp)
  have hsub : iri :: o.superproperties iri ⊆ o.properties.map (·.iri) := by
    intro above ha
    cases ha with
    | head => exact hdefined hiri
    | tail _ ha => exact hdefined (property_of_mem_superproperties h ha)
  have hle := (List.subperm_of_subset hnodup hsub).length_le
  rwa [List.length_map] at hle

end

end Ontology

end OntoQuery
