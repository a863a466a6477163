import OntoQuery.Compiler
import OntoQuery.Proofs.Checkpoints
import OntoQuery.Proofs.Placement
import OntoQuery.Proofs.SharedNodes
import OntoQuery.Proofs.Subsumption
import OntoQuery.Proofs.TemplateVariables
import OntoQuery.Proofs.Writable

/-!
# What the compiler makes can be written

Every entity in a query to the store comes from the caller's query or from the ontology, is of the
knowledge base's own vocabulary, or is a variable named after such entities. So if the entities of
the caller's query and of the ontology can be written, then each stage makes of patterns that can be
written patterns that can be written, and a query that has come to the store is written without
fault (`emission_succeeds`).
-/

namespace OntoQuery

open Sparql

namespace Ontology
variable {o : Ontology}

/-- There are terms for all classes and properties. -/
structure Writable (o : Ontology) : Prop where
  classes : ∀ c ∈ o.classes, Sparql.Writable (.ofIri c.iri)
  properties : ∀ p ∈ o.properties, Sparql.Writable (.ofIri p.iri)

theorem Writable.of_class? (h : o.Writable) {iri : Iri} (hiri : (o.class? iri).isSome = true) :
    Sparql.Writable (.ofIri iri) := by
  obtain ⟨c, hc⟩ := Option.isSome_iff_exists.1 hiri
  have heq : c.iri = iri := beq_iff_eq.1 (List.find?_some hc :)
  exact heq ▸ h.classes c (List.mem_of_find?_eq_some hc)

theorem Writable.of_property? (h : o.Writable) {iri : Iri}
    (hiri : (o.property? iri).isSome = true) : Sparql.Writable (.ofIri iri) := by
  obtain ⟨p, hp⟩ := Option.isSome_iff_exists.1 hiri
  have heq : p.iri = iri := beq_iff_eq.1 (List.find?_some hp :)
  exact heq ▸ h.properties p (List.mem_of_find?_eq_some hp)

/-- What is below a class is a class. -/
theorem Writable.of_subclass (h : o.Writable) {defs : Definitions}
    (hbuild : ofDefinitions defs = .ok o) {iri sub : Iri}
    (hsub : sub ∈ o.subclasses iri) : Sparql.Writable (.ofIri sub) := by
  have habove : iri ∈ o.superclasses sub := (mem_subclasses_iff hbuild).1 hsub
  refine h.of_class? ?_
  unfold superclasses at habove
  split at habove
  · rename_i c hc
    rw [hc]
    rfl
  · cases habove

/-- What is below a property is a property. -/
theorem Writable.of_subproperty (h : o.Writable) {defs : Definitions}
    (hbuild : ofDefinitions defs = .ok o) {iri sub : Iri}
    (hsub : sub ∈ o.subproperties iri) : Sparql.Writable (.ofIri sub) := by
  have habove : iri ∈ o.superproperties sub := (mem_subproperties_iff hbuild).1 hsub
  refine h.of_property? ?_
  unfold superproperties at habove
  split at habove
  · rename_i p hp
    rw [hp]
    rfl
  · cases habove

theorem Writable.of_linkValueProperty? (h : o.Writable) {link property : Iri}
    (hproperty : o.linkValueProperty? link = some property) :
      Sparql.Writable (.ofIri property) := by
  unfold linkValueProperty? at hproperty
  split at hproperty
  · rename_i hdefined
    cases hproperty
    exact h.of_property? (Bool.and_eq_true_iff.1 hdefined).2
  · cases hproperty

end Ontology

/-! ## Expansion -/

theorem Group.Writable.flatten {g : Group} (h : g.Writable) : g.flatten.Writable := by
  intro e he
  obtain ⟨origin, horigin, rfl⟩ := he.exists_origin
  exact writable_flatten (h origin horigin)

theorem Statement.Writable.flatten {s : Statement} (h : s.Writable) : s.flatten.Writable := by
  obtain ⟨hs, hp, ho⟩ := writable_iff.1 h
  exact writable_iff.2 ⟨writable_flatten hs, writable_flatten hp, writable_flatten ho⟩

theorem Statement.writable_deletionMarker {node : Entity} (h : Sparql.Writable node) :
    (deletionMarker node).Writable :=
  writable_iff.2 ⟨h, writable_ofIri.2 (by decide +kernel), _, rfl⟩

namespace Expander
variable {x : Expander} {s : Statement}

theorem writable_node (hs : s.Writable) (n : Nat) : Sparql.Writable (x.node s n).1 := by
  obtain ⟨hsubject, hpredicate, hobject⟩ := Statement.writable_iff.1 hs
  unfold node
  split
  · exact hobject
  · split
    · exact writable_valueNode hsubject hpredicate hobject 0
    · exact writable_valueNode hsubject hpredicate hobject (n + 1)

theorem writable_current {node : Entity} (h : Sparql.Writable node) : (current node).Writable := by
  have hnewer := writable_newerVersion h
  have hfilter : (Pattern.filter (.not (.bound (.newerVersion node)))).Writable := by
    intro e he
    cases he with
    | operand hbound he =>
      cases List.mem_singleton.1 hbound
      cases he with
      | operand hvar he =>
        cases List.mem_singleton.1 hvar
        cases he with
        | self => exact hnewer
        | operand hx => cases hx
  simp only [current, Group.writable_cons, Pattern.writable_statement, Pattern.writable_optional,
    Pattern.writable_triple]
  exact ⟨Statement.writable_deletionMarker h,
    ⟨⟨hnewer, writable_ofIri.2 (by decide +kernel), h⟩, Group.writable_nil⟩, hfilter,
    Group.writable_nil⟩

theorem writable_expandStatement (ho : x.ontology.Writable) (hs : s.Writable) {n k : Nat}
    {made : Group} (h : x.expandStatement s n = .ok (made, k)) : made.Writable := by
  obtain ⟨hsubject, hpredicate, hobject⟩ := Statement.writable_iff.1 hs
  have hnode := writable_node (x := x) hs n
  have hselected :
      Group.Writable (.triple s.subject s.predicate (x.node s n).1 :: current (x.node s n).1) :=
    Group.writable_cons.2 ⟨Pattern.writable_triple.2 ⟨hsubject, hpredicate, hnode⟩,
      writable_current hnode⟩
  cases x.expandStatement_eq_ok.1 h with
  | direct => exact Group.writable_cons.2 ⟨hs, Group.writable_nil⟩
  | node => exact hselected
  | @content kind =>
    have hcontent :
        Group.Writable [.triple (x.node s n).1 (.ofIri kind.contentPredicate) s.object] := by
      rw [Group.writable_cons, Pattern.writable_triple]
      exact ⟨⟨hnode, writable_contentPredicate kind, hobject⟩, Group.writable_nil⟩
    exact Group.writable_append.2 ⟨hselected, hcontent⟩
  | @link property _ _ hproperty =>
    have hlink := writable_linkValue hsubject property hobject
    simp only [Group.writable_cons, Pattern.writable_statement, Pattern.writable_triple]
    exact ⟨hs, ⟨hsubject, ho.of_linkValueProperty? hproperty, hlink⟩,
      ⟨hlink, writable_ofIri.2 (by decide +kernel), hobject⟩,
      Statement.writable_deletionMarker hlink,
      Group.writable_nil⟩

theorem writable_markers (hs : s.Writable) (marked : List Variable) :
    (markers (x.unmarked marked s)).Writable := by
  rw [Group.writable_iff]
  intro p hp
  obtain ⟨v, hv, rfl⟩ := List.mem_map.1 hp
  obtain ⟨hsubject, _, hobject⟩ := Statement.writable_iff.1 hs
  refine Statement.writable_deletionMarker ?_
  rcases (mem_unmarked.1 hv).1 with heq | heq
  · exact heq ▸ hsubject
  · exact heq ▸ hobject

/-- Expansion makes of a group that can be written one that can be written. -/
theorem writable_of_becomes (ho : x.ontology.Writable) {g out : Group} (hg : g.Writable)
    (h : x.Becomes g out) : out.Writable := by
  induction g using Group.by_patterns generalizing out with
  | nil =>
    rw [becomes_nil h]
    exact Group.writable_nil
  | statement s ps ih =>
    obtain ⟨hs, hps⟩ := Group.writable_cons.1 hg
    obtain ⟨_, rest, rfl, hrest, n, made, k, marked, hmade, rfl⟩ := becomes_cons h
    rw [Group.writable_append, Group.writable_append]
    exact ⟨⟨writable_expandStatement ho hs hmade, writable_markers hs marked⟩, ih hps hrest⟩
  | optional g ps ihg ih =>
    obtain ⟨hg, hps⟩ := Group.writable_cons.1 hg
    obtain ⟨_, rest, rfl, hrest, inner, hinner, rfl⟩ := becomes_cons h
    exact Group.writable_cons.2
      ⟨Pattern.writable_optional.2 (ihg (Pattern.writable_optional.1 hg) hinner), ih hps hrest⟩
  | union gs ps ihg ih =>
    obtain ⟨hgs, hps⟩ := Group.writable_cons.1 hg
    obtain ⟨_, rest, rfl, hrest, inners, hinners, rfl⟩ := becomes_cons h
    refine Group.writable_cons.2 ⟨Pattern.writable_union.2 fun inner hmem => ?_, ih hps hrest⟩
    obtain ⟨g, hg, hinner⟩ := exists_of_mem_right hinners hmem
    exact ihg g hg (hgs g hg) hinner
  | filter condition ps ih =>
    obtain ⟨hcondition, hps⟩ := Group.writable_cons.1 hg
    obtain ⟨first, rest, rfl, hrest, hfirst⟩ := becomes_cons h
    rw [show first = [.filter condition] from hfirst]
    exact Group.writable_cons.2 ⟨hcondition, ih hps hrest⟩
  | minus g ps ihg ih =>
    obtain ⟨hg, hps⟩ := Group.writable_cons.1 hg
    obtain ⟨_, rest, rfl, hrest, inner, hinner, rfl⟩ := becomes_cons h
    exact Group.writable_cons.2
      ⟨Pattern.writable_minus.2 (ihg (Pattern.writable_minus.1 hg) hinner), ih hps hrest⟩

end Expander

/-! ## Finishing -/

/-- What goes statement by statement keeps that a group can be written, if it does so for
statements. -/
theorem Group.Rewriting.writable {f : Group → Group} {put : Statement → Group}
    (hf : Rewriting f put) (hput : ∀ s : Statement, s.Writable → (put s).Writable) {g : Group}
    (h : g.Writable) : (f g).Writable := by
  induction g using Group.by_patterns with
  | nil =>
    rw [hf.nil]
    exact writable_nil
  | statement s ps ih =>
    obtain ⟨hs, hps⟩ := writable_cons.1 h
    rw [hf.statement, writable_append]
    exact ⟨hput s hs, ih hps⟩
  | optional g ps ihg ih =>
    obtain ⟨hg, hps⟩ := writable_cons.1 h
    rw [hf.optional, writable_cons, Pattern.writable_optional]
    exact ⟨ihg (Pattern.writable_optional.1 hg), ih hps⟩
  | union gs ps ihg ih =>
    obtain ⟨hgs, hps⟩ := writable_cons.1 h
    rw [hf.union, writable_cons, Pattern.writable_union, List.forall_mem_map]
    exact ⟨fun g hg => ihg g hg (hgs g hg), ih hps⟩
  | filter condition ps ih =>
    obtain ⟨hcondition, hps⟩ := writable_cons.1 h
    rw [hf.filter, writable_cons]
    exact ⟨hcondition, ih hps⟩
  | minus g ps ihg ih =>
    obtain ⟨hg, hps⟩ := writable_cons.1 h
    rw [hf.minus, writable_cons, Pattern.writable_minus]
    exact ⟨ihg (Pattern.writable_minus.1 hg), ih hps⟩

theorem Group.writable_map {ss : List Statement} :
    Group.Writable (ss.map .statement) ↔ ∀ s ∈ ss, s.Writable := by
  rw [writable_iff, List.forall_mem_map]
  rfl

namespace Statement.Writable
variable {s t : Statement}

theorem withPermission (h : s.Writable) (ht : t ∈ s.withPermission) : t.Writable := by
  obtain rfl | ⟨v, _, hsubject, rfl⟩ := mem_withPermission ht
  · exact h
  · have hv : Sparql.Writable (.var v) := hsubject ▸ (writable_iff.1 h).1
    exact writable_iff.2 ⟨hv, writable_ofIri.2 (by decide +kernel), writable_permissions hv⟩

theorem variants {o : Ontology} (ho : o.Writable) {defs : Definitions}
    (hbuild : Ontology.ofDefinitions defs = .ok o) {d : Dialect} (h : s.Writable)
    (ht : t ∈ s.variants d o) : t.Writable := by
  obtain ⟨hsubject, hpredicate, hobject⟩ := writable_iff.1 h
  unfold Statement.variants at ht
  split at ht
  · rwa [List.mem_singleton.1 ht]
  · rcases List.mem_cons.1 ht with rfl | ht
    · exact h
    · unfold narrower at ht
      split at ht
      · obtain ⟨sub, hsub, rfl⟩ := List.mem_map.1 ht
        exact writable_iff.2 ⟨hsubject, hpredicate, ho.of_subclass hbuild hsub⟩
      · obtain ⟨sub, hsub, rfl⟩ := List.mem_map.1 ht
        exact writable_iff.2 ⟨hsubject, ho.of_subproperty hbuild hsub, hobject⟩
      · cases ht

end Statement.Writable

theorem Group.Writable.finished {o : Ontology} (ho : o.Writable) {defs : Definitions}
    (hbuild : Ontology.ofDefinitions defs = .ok o) (d : Dialect) {g : Group} (h : g.Writable) :
    (g.finished d o).Writable := by
  have hpermissions : g.withPermissions.Writable :=
    withPermissions_rewriting.writable
      (fun s hs => writable_map.2 fun t ht => hs.withPermission ht) h
  refine (compensate_rewriting d o).writable (fun s hs => ?_) hpermissions
  have hvariants : ∀ t ∈ s.variants d o, t.Writable := fun t ht => hs.variants ho hbuild ht
  rw [Pattern.compensate_statement, writable_cons]
  refine ⟨?_, writable_nil⟩
  split
  · exact hs
  · rw [Pattern.writable_union, List.forall_mem_map]
    exact fun t ht => writable_cons.2 ⟨hvariants t ht, writable_nil⟩

/-! ## Ordering -/

theorem Group.Writable.addOutermost {v : Variable} {t : Statement} (ht : t.Writable) {g : Group}
    (h : g.Writable) : (g.addOutermost v t).1.Writable := by
  induction g using Group.by_inner with
  | step g ih =>
    by_cases hbinds : g.Binds v
    · rw [addOutermost_of_binds hbinds, writable_append]
      exact ⟨h, writable_cons.2 ⟨ht, writable_nil⟩⟩
    · rw [addOutermost_of_not_binds hbinds, writable_iff, List.forall_mem_map]
      intro p hp
      have hwritable := writable_iff.1 h p hp
      cases p with
      | statement s => exact hwritable
      | filter condition => exact hwritable
      | minus g => exact hwritable
      | optional g =>
        exact Pattern.writable_optional.2
          (ih _ hp g List.mem_cons_self (Pattern.writable_optional.1 hwritable))
      | union gs =>
        simp only [Pattern.addWhereBound, addInsideAll_eq, Pattern.writable_union,
          List.forall_mem_map]
        exact fun g hg => ih _ hp g hg (hwritable g hg)

theorem Group.Writable.orderByContent {x : Expander} {cs order : List OrderCriterion}
    {body body' : Group} (hkeys : ∀ c ∈ cs, Sparql.Writable (.var c.key)) (h : body.Writable)
    (horder : x.orderByContent cs body = .ok (order, body')) : body'.Writable := by
  induction cs generalizing body order with
  | nil =>
    rw [Expander.orderByContent] at horder
    cases horder
    exact h
  | cons c cs ih =>
    have hkey := hkeys c List.mem_cons_self
    have hrest := fun {body order} => @ih body order fun c' hc' =>
      hkeys c' (List.mem_cons_of_mem _ hc')
    obtain ⟨rest, middle, _, hordered, ⟨_, rfl⟩ | ⟨kind, _, hadded⟩⟩ :=
      Expander.orderByContent_cons_ok horder
    · exact hrest h hordered
    · have hcontent : Statement.Writable ⟨.var c.key, .ofIri kind.contentPredicate,
          .var c.key.orderContent⟩ :=
        Statement.writable_iff.2 ⟨hkey, writable_contentPredicate kind, writable_orderContent hkey⟩
      obtain ⟨_, rfl⟩ := Group.addWhereBound?_eq_some.1 hadded
      exact hrest (h.addOutermost hcontent) hordered

/-! ## Queries to the store -/

/-- There are terms for all entities of the query: those of its body, filters included, of its
template and of its order. -/
structure Query.Writable (q : Query) : Prop where
  body : ∀ e, q.body.HasEntity e → Sparql.Writable e
  template : ∀ s ∈ q.template, ∀ e ∈ s.entities, Sparql.Writable e
  order : ∀ c ∈ q.orderBy, Sparql.Writable (.var c.key)

namespace Query
variable {q : Query} {o : Ontology} {types : Types} {d : Dialect} {size : UInt32}
  {stored : StoreQuery}

theorem writable_body {defs : Definitions} (hbuild : Ontology.ofDefinitions defs = .ok o)
    (ho : o.Writable) (hq : q.Writable) (h : q.toStore o types d size = .ok stored) :
      stored.content.body.Writable := by
  obtain ⟨_, ⟨expanded, order, hexpanded, horder⟩, _⟩ := toStore_stages h
  obtain ⟨⟨out, k⟩, hout, rfl⟩ := map_eq_ok.1 hexpanded
  have hbody : q.body.Writable := hq.body
  have hexpanded : out.Writable :=
    Expander.writable_of_becomes (x := ⟨o, types⟩) ho hbody.flatten ⟨_, _, _, hout⟩
  exact (hexpanded.finished ho hbuild d).orderByContent hq.order horder

theorem writable_template (ho : o.Writable) (hq : q.Writable)
    (h : q.toStore o types d size = .ok stored) : ∀ t ∈ stored.content.template, t.Writable := by
  obtain ⟨⟨out, k, hout, htemplate⟩, _⟩ := template_of_toStore h
  have hstatements : ∀ s ∈ q.template.map Statement.flatten, s.Writable := by
    intro s hs
    obtain ⟨origin, horigin, rfl⟩ := List.mem_map.1 hs
    exact Statement.Writable.flatten (hq.template origin horigin)
  have hexpanded : out.Writable :=
    Expander.writable_of_becomes (x := ⟨o, types⟩) ho (Group.writable_map.2 hstatements)
      ⟨_, _, _, hout⟩
  intro t ht
  obtain ⟨s, hs, ht⟩ := htemplate t ht
  have hwritable : s.Writable := Group.writable_iff.1 hexpanded _ hs
  exact hwritable.withPermission ht

theorem writable_main (hq : q.Writable) (h : q.toStore o types d size = .ok stored) :
    Sparql.Writable (.var stored.content.mainResource) := by
  obtain ⟨s, hs, hsubject⟩ := template_of_mainResource (mainResource_of_toStore h)
  exact hsubject ▸ (Statement.writable_iff.1 (hq.template s hs)).1

theorem writable_order (hq : q.Writable) (h : q.toStore o types d size = .ok stored) :
    ∀ c ∈ stored.content.orderBy, Sparql.Writable (.var c.key) := by
  intro c hc
  have hkey : c.key ∈ stored.content.orderBy.map (·.key) := List.mem_map.2 ⟨c, hc, rfl⟩
  rw [orderBy_of_toStore h, OrderCriterion.mem_breakTies, List.map_map, List.mem_map] at hkey
  obtain ⟨origin, horigin, heq⟩ | heq := hkey
  · rw [← heq]
    have horder := hq.order origin horigin
    change Sparql.Writable (.var (Expander.orderKey ⟨o, types⟩ origin).key)
    unfold Expander.orderKey
    split
    · exact writable_orderContent horder
    · exact horder
  · rw [heq]
    exact writable_main hq h

end Query

/-- What is written for the store, once a query has come to it. -/
theorem Query.exists_emit {q : Query} {o : Ontology} {types : Types} {d : Dialect} {size : UInt32}
    {stored : StoreQuery} {defs : Definitions} (hbuild : Ontology.ofDefinitions defs = .ok o)
    (ho : o.Writable) (hq : q.Writable) (h : q.toStore o types d size = .ok stored) :
    ∃ texts, stored.emit = .ok texts := by
  have hbody := writable_body hbuild ho hq h
  have hmain := writable_main hq h
  obtain ⟨_, hcount⟩ := ContentQuery.counted_ok (toStore_counted h)
  refine StoreQuery.exists_emit (writable_template ho hq h) hbody (writable_order hq h) ?_ ?_
  · rw [hcount]
    exact hmain
  · rw [hcount]
    exact hbody

/-- **Writing never fails on what the compiler makes.** If all classes and properties of an ontology
and all entities of a query can be written, then so can the queries to any store that the query
comes to, on pages of any size; and the query is compiled whenever it is typed, checked and brought
to the store. -/
theorem emission_succeeds {defs : Definitions} {o : Ontology} (hbuild : Ontology.build defs = .ok o)
    (ho : o.Writable) {q : Query} (hq : q.Writable) :
    (∀ (types : Types) (d : Dialect) (size : UInt32) (stored : StoreQuery),
      q.toStore o types d size = .ok stored → ∃ texts, stored.emit = .ok texts) ∧
    ∀ (config : Config) (types : Types) (stored : StoreQuery),
      q.inferTypes o config.maxInferenceRounds.toNat = .ok types → q.check types = .ok () →
      q.toStore o types config.dialect config.pageSize = .ok stored →
        ∃ texts, q.compile config o = .ok texts := by
  refine ⟨fun types d size stored => Query.exists_emit hbuild ho hq, ?_⟩
  intro config types stored htypes hcheck hstored
  obtain ⟨texts, htexts⟩ := Query.exists_emit hbuild ho hq hstored
  exact ⟨texts, bind_eq_ok.2 ⟨types, htypes,
    bind_eq_ok.2 ⟨(), hcheck, bind_eq_ok.2 ⟨stored, hstored, htexts⟩⟩⟩⟩

/-- Asks for resources with a neighbour other than the villa, last names first, and for the villa
too. -/
def otherNeighbours : Query where
  schema := .simple
  template :=
    [⟨.var ⟨"r"⟩, .ofIri (Simple.vocabulary ++ "isMainResource"), .lit (.boolean true)⟩,
     hasNeighbour (.var ⟨"n"⟩)]
  body :=
    [.statement (hasNeighbour (.var ⟨"n"⟩)),
     .optional [.statement (hasNeighbour (.ofIri "http://rdfh.ch/0001/villa"))],
     .filter
       (.not (.compare (.entity (.var ⟨"n"⟩)) .eq (.entity (.ofIri "http://rdfh.ch/0001/villa"))))]
  orderBy := [{ key := ⟨"n"⟩, ascending := false }]

/-- The links to neighbours, spelled out over subtypes and with their nodes and permissions, are
written. -/
theorem emission_succeeds_neighbours :
    ∃ o types stored texts, Ontology.build neighbours = .ok o ∧ o.Writable ∧
      otherNeighbours.Writable ∧
      otherNeighbours.inferTypes o 32 = .ok types ∧ otherNeighbours.check types = .ok () ∧
      otherNeighbours.toStore o types .fuseki defaultPageSize = .ok stored ∧
      stored.emit = .ok texts := by
  obtain ⟨o, types, stored, hbuild, htypes, hchecked, hstored, hclasses, hproperties⟩ :=
    otherNeighbours.exists_stored .fuseki neighbours (fun o _ _ =>
      (∀ c ∈ o.classes, isIri c.iri = true) ∧ ∀ p ∈ o.properties, isIri p.iri = true)
        (by decide +kernel)
  have ho : o.Writable :=
    ⟨fun c hc => writable_ofIri.2 (hclasses c hc), fun p hp => writable_ofIri.2 (hproperties p hp)⟩
  have hn : Sparql.Writable (.var ⟨"n"⟩) := writable_var.2 (by decide)
  have hvilla : Sparql.Writable (.ofIri "http://rdfh.ch/0001/villa") :=
    writable_ofIri.2 (by decide +kernel)
  have hneighbour : ∀ object, Sparql.Writable object → (hasNeighbour object).Writable :=
    fun object h =>
    Statement.writable_iff.2 ⟨writable_var.2 (by decide), writable_ofIri.2 (by decide +kernel), h⟩
  have hmain : Statement.Writable
      ⟨.var ⟨"r"⟩, .ofIri (Simple.vocabulary ++ "isMainResource"), .lit (.boolean true)⟩ :=
    Statement.writable_iff.2 ⟨writable_var.2 (by decide), writable_ofIri.2 (by decide +kernel), _,
      rfl⟩
  have hfilter : Pattern.Writable (.filter (.not (.compare (.entity (.var ⟨"n"⟩)) .eq
      (.entity (.ofIri "http://rdfh.ch/0001/villa"))))) := by
    intro e he
    rw [← Expression.mem_preorder] at he
    simp only [Expression.preorder, List.mem_cons, List.mem_append, List.not_mem_nil, or_false,
      reduceCtorEq, false_or, Expression.entity.injEq] at he
    rcases he with rfl | rfl
    · exact hn
    · exact hvilla
  have hbody : otherNeighbours.body.Writable := by
    simp only [otherNeighbours, Group.writable_cons, Pattern.writable_statement,
      Pattern.writable_optional]
    exact ⟨hneighbour _ hn, ⟨hneighbour _ hvilla, Group.writable_nil⟩, hfilter, Group.writable_nil⟩
  have hq : otherNeighbours.Writable :=
    ⟨hbody, List.forall_mem_cons.2 ⟨hmain, List.forall_mem_singleton.2 (hneighbour _ hn)⟩,
      List.forall_mem_singleton.2 hn⟩
  obtain ⟨texts, htexts⟩ :=
    (emission_succeeds hbuild ho hq).1 types .fuseki defaultPageSize stored hstored
  exact ⟨o, types, stored, texts, hbuild, ho, hq, htypes, hchecked, hstored, htexts⟩

end OntoQuery
