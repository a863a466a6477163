import OntoQuery.Proofs.Subsumption
import OntoQuery.Proofs.Subtypes

/-!
# Spelling out subtypes instead of reasoning

A store that reasons answers from what its triples entail; one that does not answers from the
triples alone. `solutions_compensate_eq_entailed` says that a group has the same solutions on both,
if it is spelled out over subtypes for the second.

The proof compares one statement on both sides (`solutions_entailed_iff`). Spelling out goes
statement by statement, so equal matches of statements carry over to groups
(`Group.Rewriting.solutions_eq`).
-/

namespace OntoQuery

/-- The triples that follow from a graph by the classes and properties of the definitions: those
that it holds, and those that it holds of a class or a property further down. -/
inductive Graph.Entails (defs : Definitions) (g : Graph) : Triple → Prop where
  | given {t : Triple} : t ∈ g → Entails defs g t
  | type {subject : Node} {class_ above : Iri} {n : Nat} :
    ⟨subject, .iri Rdf.type, .iri class_⟩ ∈ g → defs.classHierarchy.Chain class_ n above →
      Entails defs g ⟨subject, .iri Rdf.type, .iri above⟩
  | property {subject object : Node} {property above : Iri} {n : Nat} :
    ⟨subject, .iri property, object⟩ ∈ g → defs.propertyHierarchy.Chain property n above →
      Entails defs g ⟨subject, .iri above, object⟩

theorem Graph.mem_entailed_iff (o : Ontology) (g : Graph) (t : Triple) :
    t ∈ g.entailed o ↔ t ∈ g ∨
      (∃ subject class_ above, ⟨subject, .iri Rdf.type, .iri class_⟩ ∈ g ∧
        above ∈ o.superclasses class_ ∧ t = ⟨subject, .iri Rdf.type, .iri above⟩) ∨
      ∃ subject property object above, ⟨subject, .iri property, object⟩ ∈ g ∧
        above ∈ o.superproperties property ∧ t = ⟨subject, .iri above, object⟩ := by
  unfold Graph.entailed
  rw [List.mem_append, List.mem_flatMap]
  refine or_congr_right ?_
  constructor
  · rintro ⟨⟨subject, predicate, object⟩, hu, ht⟩
    rcases List.mem_append.1 ht with ht | ht
    · cases object with
      | lit l => cases ht
      | iri class_ =>
        simp only [Triple.broaderTypes] at ht
        split at ht
        · rename_i hp
          obtain ⟨above, ha, rfl⟩ := List.mem_map.1 ht
          subst hp
          exact .inl ⟨subject, class_, above, hu, ha, rfl⟩
        · cases ht
    · cases predicate with
      | lit l => cases ht
      | iri property =>
        obtain ⟨above, ha, rfl⟩ := List.mem_map.1 ht
        exact .inr ⟨subject, property, object, above, hu, ha, rfl⟩
  · rintro (⟨subject, class_, above, hu, ha, rfl⟩ | ⟨subject, property, object, above, hu, ha, rfl⟩)
    · refine ⟨_, hu, List.mem_append_left _ ?_⟩
      simp only [Triple.broaderTypes, if_true]
      exact List.mem_map.2 ⟨above, ha, rfl⟩
    · exact ⟨_, hu, List.mem_append_right _ (List.mem_map.2 ⟨above, ha, rfl⟩)⟩

/-- The graph that a reasoning store answers from is the graph of what follows. -/
theorem Graph.mem_entailed_iff_entails {defs : Definitions} {o : Ontology}
    (h : Ontology.ofDefinitions defs = .ok o) (g : Graph) (t : Triple) :
    t ∈ g.entailed o ↔ g.Entails defs t := by
  rw [Graph.mem_entailed_iff]
  constructor
  · rintro (ht | ⟨subject, class_, above, hu, ha, rfl⟩ |
      ⟨subject, property, object, above, hu, ha, rfl⟩)
    · exact .given ht
    · obtain ⟨n, hc⟩ := (Ontology.mem_superclasses_iff h).1 ha
      exact .type hu hc
    · obtain ⟨n, hc⟩ := (Ontology.mem_superproperties_iff h).1 ha
      exact .property hu hc
  · rintro (ht | ⟨hu, hc⟩ | ⟨hu, hc⟩)
    · exact .inl ht
    · exact .inr (.inl ⟨_, _, _, hu, (Ontology.mem_superclasses_iff h).2 ⟨_, hc⟩, rfl⟩)
    · exact .inr (.inr ⟨_, _, _, _, hu, (Ontology.mem_superproperties_iff h).2 ⟨_, hc⟩, rfl⟩)

/-! ## One statement on both sides -/

/-- The predicate is an IRI, and so is the class if the statement gives a type. -/
def Statement.NamesTypes (s : Statement) : Prop :=
  s.predicate.iriRef?.isSome = true ∧ (s.isType = true → s.object.iriRef?.isSome = true)

instance (s : Statement) : Decidable s.NamesTypes := by
  unfold Statement.NamesTypes
  infer_instance

theorem Entity.eq_iri_of_iriRef {e : Entity} (h : e.iriRef?.isSome = true) :
    ∃ ref, e = .iri ref := by
  cases e with
  | iri ref => exact ⟨ref, rfl⟩
  | var v => cases h
  | lit l => cases h

@[simp] theorem Entity.node?_ofIri (m : Solution) (iri : Iri) :
    (Entity.ofIri iri).node? m = some (.iri iri) := rfl

section
variable {s : Statement} {m : Solution} {g : Graph}

/-- A statement with a variant that names an IRI in the same place asks for the same variables. -/
theorem mentions_object {ref : IriRef} (ho : s.object = .iri ref) (iri : Iri) (v : Variable) :
    ({ s with object := .ofIri iri } : Statement).mentions v = s.mentions v := by
  simp [Statement.mentions, Statement.entities, ho, Entity.ofIri]

theorem mentions_predicate {ref : IriRef} (hp : s.predicate = .iri ref) (iri : Iri) (v : Variable) :
    ({ s with predicate := .ofIri iri } : Statement).mentions v = s.mentions v := by
  simp [Statement.mentions, Statement.entities, hp, Entity.ofIri]

theorem solutions_object {ref : IriRef} (ho : s.object = .iri ref) (iri : Iri) :
    Statement.solutions g { s with object := .ofIri iri } m ↔
      (∀ v, (m v).isSome = s.mentions v) ∧ ∃ t ∈ g, s.subject.node? m = some t.subject ∧
        s.predicate.node? m = some t.predicate ∧ t.object = .iri iri := by
  simp only [Statement.solutions, mentions_object ho, Entity.node?_ofIri, Option.some.injEq,
    eq_comm (a := Node.iri iri)]

theorem solutions_predicate {ref : IriRef} (hp : s.predicate = .iri ref) (iri : Iri) :
    Statement.solutions g { s with predicate := .ofIri iri } m ↔
      (∀ v, (m v).isSome = s.mentions v) ∧ ∃ t ∈ g, s.subject.node? m = some t.subject ∧
        t.predicate = .iri iri ∧ s.object.node? m = some t.object := by
  simp only [Statement.solutions, mentions_predicate hp, Entity.node?_ofIri, Option.some.injEq,
    eq_comm (a := Node.iri iri)]

end

section
variable {defs : Definitions} {o : Ontology} (h : Ontology.ofDefinitions defs = .ok o)
include h

/-- A type statement matches what follows from a graph if it, or the same about a class below,
matches the graph itself. -/
theorem solutions_entailed_type (ht : o.property? Rdf.type = none) {s : Statement}
    {property class_ : IriRef} (hs : s.predicate = .iri property) (hp : property.iri = Rdf.type)
    (ho : s.object = .iri class_) (g : Graph) (m : Solution) :
    Statement.solutions (g.entailed o) s m ↔ Statement.solutions g s m ∨
      ∃ sub ∈ o.subclasses class_.iri, Statement.solutions g { s with object := .ofIri sub } m := by
  have hpred : s.predicate.node? m = some (.iri Rdf.type) := by simp [hs, Entity.node?, hp]
  have hobj : s.object.node? m = some (.iri class_.iri) := by simp [ho, Entity.node?]
  constructor
  · rintro ⟨hv, t, hmem, hsub, htp, hto⟩
    rcases (Graph.mem_entailed_iff o g t).1 hmem with hin | ⟨subject, below, above, hin, ha, rfl⟩ |
      ⟨subject, sub, object, above, hin, ha, rfl⟩
    · exact .inl ⟨hv, t, hin, hsub, htp, hto⟩
    · have heq : above = class_.iri := by simpa [hobj, eq_comm] using hto
      subst heq
      exact .inr ⟨below, (Ontology.mem_subclasses_iff h).2 ha,
        (solutions_object ho below).2
          ⟨hv, ⟨subject, .iri Rdf.type, .iri below⟩, hin, hsub, htp, rfl⟩⟩
    · -- Nothing is below `rdf:type`, since the ontology does not define it.
      have heq : above = Rdf.type := by simpa [hpred, eq_comm] using htp
      subst heq
      have hdef := Ontology.property_of_mem_superproperties h ha
      simp [ht] at hdef
  · rintro (⟨hv, t, hmem, hrest⟩ | ⟨sub, hsub, hm⟩)
    · exact ⟨hv, t, (Graph.mem_entailed_iff o g t).2 (.inl hmem), hrest⟩
    · obtain ⟨hv, ⟨subject, predicate, object⟩, hmem, htsub, htp, rfl⟩ :=
        (solutions_object ho sub).1 hm
      have heq : predicate = .iri Rdf.type := by simpa [hpred, eq_comm] using htp
      subst heq
      have ha := (Ontology.mem_subclasses_iff h).1 hsub
      exact ⟨hv, ⟨subject, .iri Rdf.type, .iri class_.iri⟩,
        (Graph.mem_entailed_iff o g _).2 (.inr (.inl ⟨subject, sub, class_.iri, hmem, ha, rfl⟩)),
        htsub, hpred, hobj⟩

/-- Any other statement matches what follows from a graph if it, or the same with a property below,
matches the graph itself. -/
theorem solutions_entailed_property {s : Statement} {property : IriRef}
    (hs : s.predicate = .iri property) (hp : property.iri ≠ Rdf.type) (g : Graph) (m : Solution) :
    Statement.solutions (g.entailed o) s m ↔ Statement.solutions g s m ∨
      ∃ sub ∈ o.subproperties property.iri,
        Statement.solutions g { s with predicate := .ofIri sub } m := by
  have hpred : s.predicate.node? m = some (.iri property.iri) := by simp [hs, Entity.node?]
  constructor
  · rintro ⟨hv, t, hmem, hsub, htp, hto⟩
    rcases (Graph.mem_entailed_iff o g t).1 hmem with hin | ⟨subject, below, above, hin, ha, rfl⟩ |
      ⟨subject, sub, object, above, hin, ha, rfl⟩
    · exact .inl ⟨hv, t, hin, hsub, htp, hto⟩
    · have heq : property.iri = Rdf.type := by simpa [hpred] using htp
      exact absurd heq hp
    · have heq : above = property.iri := by simpa [hpred, eq_comm] using htp
      subst heq
      exact .inr ⟨sub, (Ontology.mem_subproperties_iff h).2 ha,
        (solutions_predicate hs sub).2
          ⟨hv, ⟨subject, .iri sub, object⟩, hin, hsub, rfl, hto⟩⟩
  · rintro (⟨hv, t, hmem, hrest⟩ | ⟨sub, hsub, hm⟩)
    · exact ⟨hv, t, (Graph.mem_entailed_iff o g t).2 (.inl hmem), hrest⟩
    · obtain ⟨hv, ⟨subject, predicate, object⟩, hmem, htsub, rfl, hto⟩ :=
        (solutions_predicate hs sub).1 hm
      have ha := (Ontology.mem_subproperties_iff h).1 hsub
      exact ⟨hv, ⟨subject, .iri property.iri, object⟩,
        (Graph.mem_entailed_iff o g _).2
          (.inr (.inr ⟨subject, sub, object, property.iri, hmem, ha, rfl⟩)),
        htsub, hpred, hto⟩

/-- A statement matches what follows from a graph if one of its variants matches the graph. -/
theorem solutions_entailed_iff (ht : o.property? Rdf.type = none) {s : Statement}
    (hn : s.NamesTypes) (g : Graph) (m : Solution) :
    Statement.solutions (g.entailed o) s m ↔
      ∃ t ∈ s.variants .fuseki o, Statement.solutions g t m := by
  obtain ⟨property, hs⟩ := Entity.eq_iri_of_iriRef hn.1
  have hvariants : s.variants .fuseki o = s :: s.narrower o := rfl
  simp only [hvariants, List.mem_cons, exists_eq_or_imp]
  by_cases hp : property.iri = Rdf.type
  · have htype : s.isType = true := by
      simp [Statement.isType, Entity.isRdfType, Entity.isIri, hs, hp]
    obtain ⟨class_, ho⟩ := Entity.eq_iri_of_iriRef (hn.2 htype)
    rw [solutions_entailed_type h ht hs hp ho, Statement.narrower_type htype ho]
    simp
  · have htype : s.isType = false := by
      simp [Statement.isType, Entity.isRdfType, Entity.isIri, hs, hp]
    rw [solutions_entailed_property h hs hp, Statement.narrower_property htype hs]
    simp

end

/-! ## Every group on both sides -/

/-- **Spelling out subtypes stands in for reasoning.** Take an ontology that does not define
`rdf:type` as a property, and a group whose statements name their properties, and their classes
where they give types. Over any graph, the group spelled out over subtypes has the solutions that
the group itself has over what follows from the graph. -/
theorem solutions_compensate_eq_entailed {defs : Definitions} {o : Ontology}
    (hb : Ontology.build defs = .ok o) (ht : o.property? Rdf.type = none) {p : Group}
    (hp : ∀ s ∈ p.statements, s.NamesTypes) (g : Graph) (ops : Operators) :
    (∀ t, t ∈ g.entailed o ↔ g.Entails (.skeleton ++ defs) t) ∧
      (p.compensate .fuseki o).solutions (g.reading ops) =
        p.solutions ((g.entailed o).reading ops) := by
  have hleaf : ∀ s ∈ p.statements, ((g.entailed o).reading ops).statement s =
      fun m => ∃ t ∈ s.variants .fuseki o, (g.reading ops).statement t m := by
    intro s hs
    funext m
    exact propext (solutions_entailed_iff hb ht (hp s hs) g m)
  have hops : (g.reading ops).operators = ((g.entailed o).reading ops).operators := rfl
  refine ⟨Graph.mem_entailed_iff_entails hb g, ?_⟩
  apply (Group.compensate_rewriting .fuseki o).solutions_eq hops (Group.conditions_variants _ o)
  intro s hs as
  rw [hleaf s hs]
  exact Pattern.matchFrom_variants .fuseki o _ s as

/-- A text value is a value, so a store that does not reason finds it too, with whatever leads to
it. -/
theorem solutions_compensate_value : ∃ o, Ontology.build {} = .ok o ∧
    o.property? Rdf.type = none ∧ ∀ ops : Operators,
    let p : Group :=
      [.triple (.var ⟨"v"⟩) (.ofIri Rdf.type) (.ofIri Base.value),
       .optional [.triple (.var ⟨"r"⟩) (.ofIri Base.hasValue) (.var ⟨"v"⟩)]]
    let g : Graph :=
      [⟨.iri "v", .iri Rdf.type, .iri Base.textValue⟩,
        ⟨.iri "r", .iri Base.hasLinkToValue, .iri "v"⟩]
    (∀ s ∈ p.statements, s.NamesTypes) ∧
      (∀ t, t ∈ g.entailed o ↔ g.Entails (.skeleton ++ {}) t) ∧
      (p.compensate .fuseki o).solutions (g.reading ops) =
        p.solutions ((g.entailed o).reading ops) := by
  obtain ⟨o, hb⟩ := Ontology.build_skeleton
  have ht : o.property? Rdf.type = none := by
    rw [Ontology.property?_eq_none_iff hb]
    decide
  refine ⟨o, hb, ht, fun ops => ?_⟩
  intro p g
  have hp : ∀ s ∈ p.statements, s.NamesTypes := by decide
  exact ⟨hp, solutions_compensate_eq_entailed hb ht hp g ops⟩

end OntoQuery
