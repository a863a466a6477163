import OntoQuery.Proofs.Rewriting
import OntoQuery.Storage.Query

/-!
# Subtypes spelled out, and what they match

A statement that is spelled out over subtypes is a union of variants: itself, and itself about each
class or property below. So it matches what any of its variants does (`Pattern.matchFrom_variants`),
and the statements of a group that is spelled out are the variants of its own
(`Group.statements_compensate`).
-/

namespace OntoQuery

namespace Statement

/-- The statement about each class or property below the one that it names. -/
def narrower (o : Ontology) (s : Statement) : List Statement :=
  match s.isType, s.predicate, s.object with
  | true, _, .iri class_ => (o.subclasses class_.iri).map fun sub => { s with object := .ofIri sub }
  | _, .iri property, _ =>
    (o.subproperties property.iri).map fun sub => { s with predicate := .ofIri sub }
  | _, _, _ => []

/-- The statements that stand for this one in a store. -/
def variants (d : Dialect) (o : Ontology) (s : Statement) : List Statement :=
  if d.reasons then [s] else s :: s.narrower o

theorem withSubtypes_eq (o : Ontology) (s : Statement) :
    s.withSubtypes o = s.orAny (s.narrower o) := by
  obtain ⟨subject, predicate, object⟩ := s
  unfold withSubtypes narrower
  generalize isType _ = type
  cases type <;> cases predicate <;> cases object <;> rfl

theorem self_mem_variants (d : Dialect) (o : Ontology) (s : Statement) : s ∈ s.variants d o := by
  unfold variants
  split <;> exact List.mem_cons_self

/-- A variant has another object or another predicate, never both, and both are IRIs. -/
theorem mem_variants_cases {d : Dialect} {o : Ontology} {s t : Statement} (h : t ∈ s.variants d o) :
    t = s ∨ (∃ sub, t = { s with object := .ofIri sub }) ∨
      ∃ sub, t = { s with predicate := .ofIri sub } := by
  have hnarrower : t ∈ s.narrower o → (∃ sub, t = { s with object := .ofIri sub }) ∨
      ∃ sub, t = { s with predicate := .ofIri sub } := by
    intro ht
    unfold narrower at ht
    split at ht
    · obtain ⟨sub, _, rfl⟩ := List.mem_map.1 ht
      exact .inl ⟨sub, rfl⟩
    · obtain ⟨sub, _, rfl⟩ := List.mem_map.1 ht
      exact .inr ⟨sub, rfl⟩
    · cases ht
  unfold variants at h
  split at h
  · exact .inl (List.mem_singleton.1 h)
  · exact (List.mem_cons.1 h).imp id hnarrower

theorem subject_of_mem_variants {d : Dialect} {o : Ontology} {s t : Statement}
    (h : t ∈ s.variants d o) : t.subject = s.subject := by
  obtain rfl | ⟨_, rfl⟩ | ⟨_, rfl⟩ := mem_variants_cases h
  · rfl
  · rfl
  · rfl

theorem object_of_mem_variants {d : Dialect} {o : Ontology} {s t : Statement} {v : Variable}
    (h : t ∈ s.variants d o) (ht : t.object = .var v) : s.object = .var v := by
  obtain rfl | ⟨_, rfl⟩ | ⟨_, rfl⟩ := mem_variants_cases h
  · exact ht
  · cases ht
  · exact ht

/-- A variant mentions no variable that the statement does not. -/
theorem mentions_of_mem_variants {d : Dialect} {o : Ontology} {s t : Statement}
    (h : t ∈ s.variants d o) {v : Variable} (hv : t.mentions v = true) : s.mentions v = true := by
  rw [mentions_eq_true] at hv ⊢
  obtain rfl | ⟨sub, rfl⟩ | ⟨sub, rfl⟩ := mem_variants_cases h
  · exact hv
  · rcases hv with hv | hv | hv
    · exact .inl hv
    · exact .inr (.inl hv)
    · cases hv
  · rcases hv with hv | hv | hv
    · exact .inl hv
    · cases hv
    · exact .inr (.inr hv)

theorem narrower_type {o : Ontology} {s : Statement} {class_ : IriRef} (ht : s.isType = true)
    (hs : s.object = .iri class_) :
    s.narrower o = (o.subclasses class_.iri).map fun sub => { s with object := .ofIri sub } := by
  simp [narrower, ht, hs]

theorem narrower_property {o : Ontology} {s : Statement} {property : IriRef}
    (ht : s.isType = false) (hs : s.predicate = .iri property) :
    s.narrower o =
      (o.subproperties property.iri).map fun sub => { s with predicate := .ofIri sub } := by
  simp [narrower, ht, hs]

end Statement

/-- The pattern as the store needs it. -/
def Pattern.compensate (d : Dialect) (o : Ontology) (p : Pattern) : Pattern :=
  if d.reasons then p else p.withSubtypes o

namespace Group

theorem withSubtypes_eq_map (o : Ontology) (g : Group) :
    g.withSubtypes o = g.map (Pattern.withSubtypes o) := by
  induction g with
  | nil => rfl
  | cons p ps ih => simp only [withSubtypes, List.map_cons, ih]

theorem allWithSubtypes_eq_map (o : Ontology) (gs : List Group) :
    allWithSubtypes o gs = gs.map (withSubtypes o) := by
  induction gs with
  | nil => rfl
  | cons g gs ih => simp only [allWithSubtypes, List.map_cons, ih]

theorem compensate_eq_map (d : Dialect) (o : Ontology) (g : Group) :
    g.compensate d o = g.map (Pattern.compensate d o) := by
  unfold compensate Pattern.compensate
  split
  · simp
  · exact withSubtypes_eq_map o g

end Group

section
variable (d : Dialect) (o : Ontology)

theorem Pattern.compensate_optional (g : Group) :
    (Pattern.optional g).compensate d o = .optional (g.compensate d o) := by
  unfold Pattern.compensate Group.compensate
  split <;> rfl

theorem Pattern.compensate_minus (g : Group) :
    (Pattern.minus g).compensate d o = .minus (g.compensate d o) := by
  unfold Pattern.compensate Group.compensate
  split <;> rfl

theorem Pattern.compensate_union (gs : List Group) :
    (Pattern.union gs).compensate d o = .union (gs.map (Group.compensate d o)) := by
  cases h : d.reasons with
  | true =>
    have hid : Group.compensate d o = id := by
      funext g
      simp [Group.compensate, h]
    simp [Pattern.compensate, h, hid]
  | false =>
    have hsub : Group.compensate d o = Group.withSubtypes o := by
      funext g
      simp [Group.compensate, h]
    simp [Pattern.compensate, h, hsub, Pattern.withSubtypes, Group.allWithSubtypes_eq_map]

theorem Pattern.compensate_filter (e : Expression) :
    (Pattern.filter e).compensate d o = .filter e := by
  unfold Pattern.compensate
  split <;> rfl

/-- Spelling out goes statement by statement. -/
theorem Group.compensate_rewriting :
    Rewriting (Group.compensate d o) fun s => [(Pattern.statement s).compensate d o] where
  nil := by rw [compensate_eq_map]; rfl
  statement s ps := by simp only [compensate_eq_map, List.map_cons, List.singleton_append]
  optional g ps := by
    rw [← Pattern.compensate_optional]
    simp only [compensate_eq_map, List.map_cons]
  union gs ps := by
    rw [← Pattern.compensate_union]
    simp only [compensate_eq_map, List.map_cons]
  filter e ps := by simp only [compensate_eq_map, List.map_cons, Pattern.compensate_filter]
  minus g ps := by
    rw [← Pattern.compensate_minus]
    simp only [compensate_eq_map, List.map_cons]

end

/-! ## What the variants of a statement match -/

namespace Group

theorem alternatives_variants (r : Reading) (ts : List Statement) (m : Solution) :
    alternatives r (ts.map fun t => [.statement t]) m ↔ ∃ t ∈ ts, r.statement t m := by
  rw [alternatives_iff]
  constructor
  · rintro ⟨g, hg, hm⟩
    obtain ⟨t, ht, rfl⟩ := List.mem_map.1 hg
    exact ⟨t, ht, by rwa [solutions_statement] at hm⟩
  · rintro ⟨t, ht, hm⟩
    exact ⟨[.statement t], List.mem_map.2 ⟨t, ht, rfl⟩, by rwa [solutions_statement]⟩

end Group

section
variable (d : Dialect) (o : Ontology)

/-- A statement for the store is the statement itself, if there is nothing else that may stand for
it, and otherwise a union of the statements that may. -/
theorem Pattern.compensate_statement (s : Statement) :
    (Pattern.statement s).compensate d o =
      if s.variants d o = [s] then .statement s
      else .union ((s.variants d o).map fun t => [.statement t]) := by
  unfold Pattern.compensate Statement.variants
  split
  · simp
  · rw [Pattern.withSubtypes, Statement.withSubtypes_eq]
    cases s.narrower o with
    | nil => simp [Statement.orAny]
    | cons t ts => simp [Statement.orAny]

/-- A statement for the store matches what one of its variants matches. -/
theorem Pattern.matchFrom_variants (r : Reading) (s : Statement) (as : Solutions) :
    ((Pattern.statement s).compensate d o).matchFrom r as =
      as.join fun m => ∃ t ∈ s.variants d o, r.statement t m := by
  rw [Pattern.compensate_statement]
  split
  · rename_i hv
    simp only [Pattern.matchFrom, hv, List.mem_singleton, exists_eq_left]
  · have halt : Group.alternatives r ((s.variants d o).map fun t => [.statement t]) =
        fun m => ∃ t ∈ s.variants d o, r.statement t m := by
      funext m
      exact propext (Group.alternatives_variants r (s.variants d o) m)
    simp only [Pattern.matchFrom, halt]

namespace Group

/-- A solution of a group has come through one of the variants of each of its statements. -/
theorem exists_variant {r : Reading} {g : Group} {s : Statement}
    (hs : (Pattern.statement s).compensate d o ∈ g) {as : Solutions} {m : Solution}
    (h : g.matchFrom r as m) : ∃ t ∈ s.variants d o, ∃ b, r.statement t b ∧ m.Extends b := by
  obtain ⟨cs, c, hc, hmc⟩ := matchFrom_mem hs h
  rw [Pattern.matchFrom_variants] at hc
  obtain ⟨_, b, ⟨t, ht, hb⟩, hcb⟩ := Solutions.join_extends hc
  exact ⟨t, ht, b, hb, hmc.trans hcb⟩

theorem conditions_variants (s : Statement) :
    [(Pattern.statement s).compensate d o].filterMap Pattern.condition? = [] := by
  rw [Pattern.compensate_statement]
  split <;> rfl

theorem solutions_variants (r : Reading) (s : Statement) :
    solutions r [(Pattern.statement s).compensate d o] =
      fun m => ∃ t ∈ s.variants d o, r.statement t m := by
  unfold solutions filtered
  rw [matchFrom, matchFrom, Pattern.matchFrom_variants, conditions_variants, Solutions.unit_join]
  simp

theorem statements_compensate (g : Group) :
    (g.compensate d o).statements = g.statements.flatMap (Statement.variants d o) := by
  rw [(compensate_rewriting d o).statements_eq]
  apply List.flatMap_congr
  intro s _
  rw [Pattern.compensate_statement]
  split
  · rename_i hv
    rw [hv]
    rfl
  · rw [statements_union, List.flatMap_map, statements_nil, List.append_nil]
    exact List.flatMap_singleton' _

end Group

end

end OntoQuery
