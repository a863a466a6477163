import OntoQuery.Proofs.Finishing
import OntoQuery.Proofs.Naming
import OntoQuery.Proofs.Subsumption

/-!
# Only current values are matched

Values have versions. For each value that a query asks for, the store is asked that the node is not
deleted, that a newer version be found if there is one, and that none was found. Here it is proved
that these conditions do what they are for: in every solution of the group where a value is asked
for, its node is current in the graph (`storeBody_matches_current`).

The last condition speaks of the end of its group, so a name that several statements share does no
harm. If the variable for the newer version has no node in the end, it had none when its OPTIONAL
was matched, and then OPTIONAL would have found any newer version of the node.
-/

namespace OntoQuery

/-- The graph says that the node is not deleted, and of nothing that it replaces the node. For a
store that does not reason, a property below the one for deletion may say so too. -/
structure Graph.Current (d : Dialect) (o : Ontology) (g : Graph) (node : Node) : Prop where
  undeleted : ∃ property, (property = Base.isDeleted ∨
    d = .fuseki ∧ property ∈ o.subproperties Base.isDeleted) ∧
      ⟨node, .iri property, .lit (.boolean false)⟩ ∈ g
  newest : ∀ newer, ⟨newer, .iri Base.previousValue, node⟩ ∉ g

namespace Statement

/-- The statement that finds a newer version. -/
def replaces (node : Entity) : Statement :=
  ⟨.var (.newerVersion node), .ofIri Base.previousValue, node⟩

theorem mem_variants_deletionMarker {d : Dialect} {o : Ontology} {node : Entity} {t : Statement}
    (h : t ∈ (deletionMarker node).variants d o) :
    ∃ property, (property = Base.isDeleted ∨
      d = .fuseki ∧ property ∈ o.subproperties Base.isDeleted) ∧
        t = ⟨node, .ofIri property, .lit (.boolean false)⟩ := by
  have htype : (deletionMarker node).isType = false := rfl
  cases d with
  | graphDb => exact ⟨Base.isDeleted, .inl rfl, List.mem_singleton.1 h⟩
  | fuseki =>
    rcases List.mem_cons.1 h with rfl | h
    · exact ⟨Base.isDeleted, .inl rfl, rfl⟩
    · rw [narrower_property htype rfl] at h
      obtain ⟨property, hproperty, rfl⟩ := List.mem_map.1 h
      exact ⟨property, .inr ⟨rfl, hproperty⟩, rfl⟩

/-- A newer version, with the node that it replaces, is what the statement matches. -/
theorem solutions_replaces {g : Graph} {node : Entity} {newer a : Node} {m : Solution}
    (h : ⟨newer, .iri Base.previousValue, a⟩ ∈ g) (hnode : node.isLiteral = false)
    (hm : node.node? m = some a) :
    (replaces node).solutions g fun v =>
      if v = .newerVersion node then some newer else if node = .var v then some a else none := by
  cases node with
  | lit l => cases hnode
  | iri ref =>
    refine ⟨?_, _, h, ?_, rfl, hm⟩
    · intro v
      by_cases hv : v = .newerVersion (.iri ref)
      · simp [hv, mentions, entities, replaces]
      · simp [hv, mentions, entities, replaces, Entity.ofIri]
    · simp [replaces, Entity.node?]
  | var u =>
    have hne := Variable.newerVersion_ne u
    refine ⟨?_, _, h, ?_, rfl, ?_⟩
    · intro v
      by_cases hv : v = .newerVersion (.var u)
      · simp [hv, mentions, entities, replaces]
      · by_cases hu : u = v
        · subst hu
          simp [hv, mentions, entities, replaces]
        · simp [hv, hu, Ne.symm hu, mentions, entities, replaces, Entity.ofIri]
    · simp [replaces, Entity.node?]
    · simp [replaces, Entity.node?, hne.symm]

/-- What the statement matches agrees with a solution that has the node and no newer version. -/
theorem compatible_replaces {node : Entity} {newer a : Node} {m : Solution}
    (hnone : m (.newerVersion node) = none) (hm : node.node? m = some a) :
    m.Compatible fun v =>
      if v = .newerVersion node then some newer else if node = .var v then some a else none := by
  intro v b c hb hc
  dsimp only at hc
  split at hc
  · rename_i hv
    rw [hv, hnone] at hb
    cases hb
  · split at hc
    · rename_i hv
      subst hv
      cases hc
      exact Option.some.inj (hb.symm.trans hm)
    · cases hc

end Statement

section
variable {d : Dialect} {o : Ontology} {graph : Graph} {ops : Operators} {g : Group} {m : Solution}
  (hm : g.solutions (graph.reading ops) m) {node : Entity} {a : Node} (ha : node.node? m = some a)
include hm ha

/-- A deletion marker holds in every solution of its group. -/
theorem undeleted_of_solutions
    (hmarker : (Pattern.statement (.deletionMarker node)).compensate d o ∈ g) :
    ∃ property, (property = Base.isDeleted ∨
      d = .fuseki ∧ property ∈ o.subproperties Base.isDeleted) ∧
        ⟨a, .iri property, .lit (.boolean false)⟩ ∈ graph := by
  obtain ⟨t, ht, b, hb, hmb⟩ := Group.exists_variant d o hmarker hm.1
  obtain ⟨property, hproperty, rfl⟩ := Statement.mem_variants_deletionMarker ht
  obtain ⟨⟨_, _, _⟩, htriple, hsubject, hpredicate, hobject⟩ := Statement.triple_of_extends hb hmb
  cases ha.symm.trans hsubject
  cases hpredicate
  cases hobject
  exact ⟨property, hproperty, htriple⟩

/-- If the variable for the newer version has no node in the end, there is no newer version. -/
theorem newest_of_solutions
    (hoptional : .optional [(Pattern.statement (.replaces node)).compensate d o] ∈ g)
    (hfilter : .filter (.not (.bound (.newerVersion node))) ∈ g) (hnode : node.isLiteral = false)
    (newer : Node) : ⟨newer, .iri Base.previousValue, a⟩ ∉ graph := by
  intro hnewer
  have hnone : m (.newerVersion node) = none := by
    have := hm.2 _ (List.mem_filterMap.2 ⟨_, hfilter, rfl⟩)
    exact (Expression.holds_not_bound ops m _).1 this
  obtain ⟨_, b, hb, hmb⟩ := Group.matchFrom_mem hoptional hm.1
  rw [Pattern.matchFrom_optional, Group.solutions_variants] at hb
  rcases hb with hjoin | ⟨_, hnot⟩
  · -- What the OPTIONAL finds stays to the end, against the filter.
    obtain ⟨_, c, ⟨t, ht, hc⟩, hbc⟩ := Solutions.join_extends hjoin
    obtain ⟨u, _, hsubject, _⟩ := Statement.triple_of_extends hc (hmb.trans hbc)
    rw [Statement.subject_of_mem_variants ht] at hsubject
    cases hnone.symm.trans hsubject
  · -- The newer version would have been found, since nothing before is at odds with it.
    refine hnot _ ⟨_, Statement.self_mem_variants d o _,
      Statement.solutions_replaces hnewer hnode ha⟩ ?_
    intro v a' b' hbv hfound
    exact Statement.compatible_replaces hnone ha v a' b' (hmb v a' hbv) hfound

end

/-- In a group for the store with the conditions on a value node, the node is current. -/
theorem Group.current_of_finished {d : Dialect} {o : Ontology} {made : Group} {node : Entity}
    (hmade : Expander.current node ⊆ made) (hnode : node.isLiteral = false) {graph : Graph}
    {ops : Operators} {m : Solution} (hm : (made.finished d o).solutions (graph.reading ops) m)
    {a : Node} (ha : node.node? m = some a) : graph.Current d o a := by
  have hf := Group.finished_rewriting d o
  constructor
  · apply undeleted_of_solutions hm ha
    apply hf.mem_of_statement (hmade List.mem_cons_self)
    simp [Statement.withPermission, compensate_eq_map]
  · apply newest_of_solutions hm ha
    · have := hf.mem_of_optional (hmade (List.mem_cons_of_mem _ List.mem_cons_self))
      rwa [Pattern.triple, hf.statement, hf.nil, List.append_nil, compensate_eq_map] at this
    · exact hf.mem_of_filter
        (hmade (List.mem_cons_of_mem _ (List.mem_cons_of_mem _ List.mem_cons_self)))
    · exact hnode

namespace Expander
variable {x : Expander}

/-- **Only current values are matched.** Take a body that comes to the store, and a group in it at
any depth. In every solution of what becomes of the group, over any graph, the node of each value
that the group itself asks for is current. Expansion comes to every group of the body, and what
becomes of a group stands at the same place, after what becomes of the patterns before it. -/
theorem storeBody_matches_current {d : Dialect} {body out : Group}
    (hrun : x.storeBody d body = .ok out) :
    (∀ befores g, body.Inside befores g → ∃ others site,
      x.Reaches ⟨body.flatten, [], 0⟩ others site ∧ site.group = g.flatten ∧
        List.Forall₂ x.Becomes (befores.map Group.flatten) others) ∧
    ∀ others site, x.Reaches ⟨body.flatten, [], 0⟩ others site →
      ∃ made n, x.expandSite site = .ok (made, n) ∧
        out.Inside (others.map (Group.finished d x.ontology)) (made.finished d x.ontology) ∧
        ∀ before s after, site.group = before ++ .statement s :: after → x.passage s = .ok .value →
          ∃ written k, x.expandGroup before site.marked site.numbered = .ok (written, k) ∧
            ∀ (graph : Graph) ops m a,
              (made.finished d x.ontology).solutions (graph.reading ops) m →
              (x.node s k).1.node? m = some a → graph.Current d x.ontology a := by
  obtain ⟨expanded, hexpanded, hout⟩ := bind_eq_ok.1 hrun
  cases pure_eq_ok.1 hout
  obtain ⟨⟨_, n⟩, hwhole, rfl⟩ := map_eq_ok.1 hexpanded
  constructor
  · intro befores g hg
    exact exists_reaches (hg.map Group.flatten_structural) hwhole
  · intro others site hsite
    obtain ⟨made, k, hmade, hinside⟩ := reaches_inside hsite hwhole
    refine ⟨made, k, hmade, hinside.map (Group.finished_rewriting d x.ontology).structural, ?_⟩
    intro before s after hgroup hs
    rw [expandSite, hgroup] at hmade
    obtain ⟨written, k', own, _, later, hwritten, hown, _, rfl⟩ := expandGroup_statement_ok hmade
    refine ⟨written, k', hwritten, ?_⟩
    intro graph ops m a hm ha
    refine Group.current_of_finished ?_ (x.node_not_literal s k') hm ha
    apply List.subset_append_of_subset_right
    apply List.subset_append_of_subset_left
    exact x.current_subset hs hown

/-- A text value that is asked for in an OPTIONAL is current wherever it is found. -/
theorem storeBody_matches_current_text :
    let s : Statement := ⟨.var ⟨"r"⟩, .ofIri Base.hasValue, .var ⟨"v"⟩⟩
    let types : Types := ⟨[(.var ⟨"v"⟩, .entity Base.textValue false true)]⟩
    ∃ (o : Ontology) (made : Group), Ontology.build {} = .ok o ∧
      storeBody ⟨o, types⟩ .fuseki [.optional [.statement s]] = .ok [.optional made] ∧
      passage ⟨o, types⟩ s = .ok .value ∧
      ∀ (graph : Graph) ops m a, made.solutions (graph.reading ops) m → m ⟨"v"⟩ = some a →
        graph.Current .fuseki o a := by
  intro s types
  have hrun : ((Ontology.build {}).toOption.map fun o =>
      decide ((storeBody ⟨o, types⟩ .fuseki [.optional [.statement s]]).toOption.isSome = true ∧
        (passage ⟨o, types⟩ s).toOption = some .value)) = some true := by decide +kernel
  obtain ⟨o, hbuild, hout, hpassage⟩ := Ontology.exists_built hrun
  obtain ⟨out, hout⟩ := Option.isSome_iff_exists.1 hout
  have hout := eq_ok_of_toOption hout
  have hpassage := eq_ok_of_toOption hpassage
  have hsite : Reaches ⟨o, types⟩ ⟨Group.flatten [.optional [.statement s]], [], 0⟩ [[]]
      ⟨[.statement s], [], 0⟩ :=
    .into (@Enters.optional _ [] [] [.statement s] [] [] 0 0 rfl) (.here _)
  obtain ⟨made, n, hmade, _, hvalues⟩ := (storeBody_matches_current hout).2 _ _ hsite
  obtain ⟨_, _, _, hcurrent⟩ := hvalues [] s [] rfl hpassage
  -- The body is the OPTIONAL alone, so it comes to what its group comes to.
  have hexpanded : expandGroup ⟨o, types⟩ (Group.flatten [.optional [.statement s]]) [] 0 =
      .ok ([.optional made], n) := by
    change (expandPattern ⟨o, types⟩ (.optional [.statement s]) [] 0 >>= fun first => _) = _
    change ((expandSite ⟨o, types⟩ ⟨[.statement s], [], 0⟩ >>= fun inner => _) >>= fun _ => _) = _
    rw [hmade]
    rfl
  have hwhole : storeBody ⟨o, types⟩ .fuseki [.optional [.statement s]] =
      .ok [.optional (made.finished .fuseki o)] := by
    have hf := Group.finished_rewriting .fuseki o
    have hfinished := hf.optional made []
    rw [hf.nil] at hfinished
    rw [← hfinished]
    exact bind_eq_ok.2 ⟨_, map_eq_ok.2 ⟨_, hexpanded, rfl⟩, rfl⟩
  exact ⟨o, _, hbuild, hwhole, hpassage, hcurrent⟩

end Expander

end OntoQuery
