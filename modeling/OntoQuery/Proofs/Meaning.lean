import OntoQuery.Proofs.Asked
import OntoQuery.Proofs.Marking
import OntoQuery.Proofs.Subsumption

/-!
# Expansion keeps the meaning

`Expander.asked` says what a caller's statement asks for, in terms of nodes and without generated
variables. Here it is proved that a body asks for just that after expansion: the solutions of what
is written, seen through the variables of the body, are the solutions of the body with its deletion
markers when each statement is read so (`expansion_keeps_meaning`).

The proof goes through the body pattern by pattern with a `Shadow`. Every group starts anew with no
variables, and at its end its filters leave the live solutions only; so groups inside, in which
there are other hidden variables, can be joined, left out or taken away on both sides.
-/

namespace OntoQuery

/-! ## Markers -/

/-- A property with nothing directly above it has nothing above it. -/
theorem Hierarchy.not_chain {h : Hierarchy} {start : Iri} (hroot : h.parents start = []) {n : Nat}
    {iri : Iri} : ¬ h.Chain start n iri := by
  intro hchain
  induction hchain with
  | parent hp =>
    rw [hroot] at hp
    cases hp
  | step _ _ ih => exact ih

theorem Ontology.superproperties_isDeleted {defs : Definitions} {o : Ontology}
    (h : build defs = .ok o) : o.superproperties Base.isDeleted = [] := by
  have hroot : (Definitions.skeleton ++ defs).propertyHierarchy.parents Base.isDeleted = [] := rfl
  apply List.eq_nil_iff_forall_not_mem.2
  intro above ha
  obtain ⟨_, hchain⟩ := (mem_superproperties_iff h).1 ha
  exact Hierarchy.not_chain hroot hchain

namespace Expander
variable {x : Expander}

/-- A deletion marker is neither about a value nor about a link. -/
theorem passage_deletionMarker {defs : Definitions} (h : Ontology.build defs = .ok x.ontology)
    (node : Entity) : x.passage (.deletionMarker node) = .ok .direct := by
  have hbelow : ∀ property, Base.isDeleted ≠ property →
      x.ontology.isSubpropertyOf Base.isDeleted property = false := by
    intro property hne
    simp [Ontology.isSubpropertyOf, Ontology.superproperties_isDeleted h, hne]
  have hlink : x.ontology.isLinkProperty Base.isDeleted = false := by
    rw [Ontology.isLinkProperty, hbelow Base.hasLinkTo (by decide), Bool.and_false]
  have hvalue : x.ontology.isValueProperty Base.isDeleted = false := by
    rw [Ontology.isValueProperty, hbelow Base.hasValue (by decide), Bool.and_false]
  have htype : Base.isDeleted ≠ Rdf.type := by decide
  simp [passage, Statement.deletionMarker, Entity.ofIri, IriRef.of, hlink, hvalue, htype]

mutual

/-- The pattern with deletion markers where expansion writes them: after a statement, for its
resource variables that are not yet marked. -/
def withMarkersPattern (x : Expander) : Pattern → (marked : List Variable) → Group
  | .statement s, marked => .statement s :: markers (x.unmarked marked s)
  | .optional g, marked => [.optional (x.withMarkers g marked)]
  | .union gs, marked => [.union (x.withMarkersAll gs marked)]
  | .filter e, _ => [.filter e]
  | .minus g, marked => [.minus (x.withMarkers g marked)]

/-- The group with deletion markers where expansion writes them. -/
def withMarkers (x : Expander) : Group → (marked : List Variable) → Group
  | [], _ => []
  | p :: ps, marked => x.withMarkersPattern p marked ++ x.withMarkers ps (x.mark marked p)

def withMarkersAll (x : Expander) : List Group → (marked : List Variable) → List Group
  | [], _ => []
  | g :: gs, marked => x.withMarkers g marked :: x.withMarkersAll gs marked

end

theorem withMarkers_singleton (p : Pattern) (marked : List Variable) :
    x.withMarkers [p] marked = x.withMarkersPattern p marked := by
  rw [withMarkers, withMarkers, List.append_nil]

theorem withMarkers_append (g g' : Group) (marked : List Variable) :
    x.withMarkers (g ++ g') marked = x.withMarkers g marked ++ x.withMarkers g'
      (x.marks marked g) := by
  induction g generalizing marked with
  | nil => rw [withMarkers]; rfl
  | cons p ps ih => rw [List.cons_append, withMarkers, withMarkers, ih, List.append_assoc]; rfl

/-! ## Filters -/

theorem filter_not_mem_markers (e : Expression) (vs : List Variable) : .filter e ∉ markers vs := by
  simp [markers]

theorem filter_mem_withMarkers {e : Expression} {g : Group} {marked : List Variable} :
    .filter e ∈ x.withMarkers g marked ↔ .filter e ∈ g := by
  induction g generalizing marked with
  | nil => rw [withMarkers]
  | cons p ps ih =>
    rw [withMarkers, List.mem_append, ih, List.mem_cons]
    cases p with
    | statement s => simp [withMarkersPattern, filter_not_mem_markers]
    | optional g => simp [withMarkersPattern]
    | union gs => simp [withMarkersPattern]
    | filter e' => simp [withMarkersPattern]
    | minus g => simp [withMarkersPattern]

/-- The only filters that are written for a statement are those against newer versions. -/
theorem filter_of_expandStatement {s : Statement} {n k : Nat} {made : Group} {e : Expression}
    (h : x.expandStatement s n = .ok (made, k)) (he : .filter e ∈ made) :
    ∃ node, e = .not (.bound (.newerVersion node)) := by
  obtain ⟨_, rfl⟩ | ⟨_, rest, rfl, hrest⟩ | ⟨_, _, _, _, rfl⟩ := x.expandStatement_ok h
  · simp at he
  · obtain rfl | ⟨kind, rfl⟩ := hrest
    · exact ⟨(x.node s n).1, by simpa [current, Pattern.triple] using he⟩
    · exact ⟨(x.node s n).1, by simpa [current, Pattern.triple] using he⟩
  · simp [Pattern.triple] at he

theorem filter_of_expandGroup {g : Group} {marked : List Variable} {n k : Nat} {out : Group}
    {e : Expression} (h : x.expandGroup g marked n = .ok (out, k)) (he : .filter e ∈ out) :
    .filter e ∈ g ∨ ∃ node, e = .not (.bound (.newerVersion node)) := by
  induction g generalizing marked n out with
  | nil =>
    rw [expandGroup] at h
    cases h
    cases he
  | cons p ps ih =>
    obtain ⟨first, n', rest, hfirst, hrest, rfl⟩ := expandGroup_cons_ok.1 h
    rcases List.mem_append.1 he with he | he
    · have hp := (x.expandPattern_ok hfirst).2
      cases p with
      | statement s =>
        obtain ⟨made, hmade, rfl⟩ := hp
        rcases List.mem_append.1 he with he | he
        · exact .inr (filter_of_expandStatement hmade he)
        · exact absurd he (filter_not_mem_markers e _)
      | optional g =>
        obtain ⟨_, _, rfl⟩ := hp
        simp at he
      | union gs =>
        obtain ⟨_, _, rfl⟩ := hp
        simp at he
      | filter e' =>
        obtain ⟨_, rfl⟩ := hp
        cases List.mem_singleton.1 he
        exact .inl List.mem_cons_self
      | minus g =>
        obtain ⟨_, _, rfl⟩ := hp
        simp at he
    · exact (ih hrest he).imp_left (List.mem_cons_of_mem _)

/-- Filters of a group are kept as they are. -/
theorem filter_mem_expandGroup {g : Group} {marked : List Variable} {n k : Nat} {out : Group}
    {e : Expression} (h : x.expandGroup g marked n = .ok (out, k)) (he : .filter e ∈ g) :
    .filter e ∈ out := by
  obtain ⟨before, after, rfl⟩ := List.append_of_mem he
  obtain ⟨written, _, rest, _, hrest, rfl⟩ := expandGroup_append_ok.1 h
  obtain ⟨first, _, last, hfirst, _, rfl⟩ := expandGroup_cons_ok.1 hrest
  obtain ⟨_, _, rfl⟩ := x.expandPattern_ok hfirst
  simp

/-! ## Groups -/

section
variable {defs : Definitions} (hbuild : Ontology.build defs = .ok x.ontology)
  {keep : Variable → Bool} (hkeep : ∀ v, keep v = true → v.isReserved = false)
  (graph : Graph) (ops : Operators)

include hbuild hkeep in
theorem shadow_markers {vs : List Variable} (hvs : ∀ v ∈ vs, keep v = true) {names : List Variable}
    {written : Group} {as bs : Solutions} (h : Shadow keep names written as bs) :
    Shadow keep names written ((markers vs).matchFrom (graph.reading ops) as)
      ((markers vs).matchFrom (x.reading graph ops) bs) := by
  induction vs generalizing as bs with
  | nil => exact h
  | cons v vs ih =>
    have hplain : Shadow keep [] [] ((Statement.deletionMarker (.var v)).solutions graph)
        (x.asked graph (.deletionMarker (.var v))) := by
      rw [asked_direct (passage_deletionMarker hbuild _)]
      refine Shadow.plain hkeep fun b hb u hu => hvs u ?_
      rw [hb.1, Statement.mentions_eq_true] at hu
      rcases hu with hu | hu | hu
      · cases hu
        exact List.mem_cons_self
      · cases hu
      · cases hu
    have hnext := h.join hplain (by simp) (by simp [Fresh])
    rw [List.append_nil] at hnext
    exact ih (fun u hu => hvs u (List.mem_cons_of_mem _ hu)) hnext

/-- What the group becomes has the same shadow as the group, whatever solutions they continue. -/
def Carries (x : Expander) (keep : Variable → Bool) (graph : Graph) (ops : Operators) (g : Group) :
    Prop :=
  ∀ ⦃marked : List Variable⦄ ⦃n k : Nat⦄ ⦃out : Group⦄ ⦃names : List Variable⦄ ⦃written : Group⦄
    ⦃as bs : Solutions⦄, x.expandGroup g marked n = .ok (out, k) →
    (names ++ x.hiddenIn n g.statements).Nodup → Shadow keep names written as bs →
    Shadow keep (names ++ x.hiddenIn n g.statements) (written ++ out)
      (out.matchFrom (graph.reading ops) as)
      ((x.withMarkers g marked).matchFrom (x.reading graph ops) bs)

section
variable {graph ops} {g : Group} {gs : List Group} {marked : List Variable} {n k : Nat}
include hkeep

/-- At its end a group has no variables for newer versions left. -/
theorem Carries.solutions (hg : x.Carries keep graph ops g)
    (hown : ∀ v, .var v ∈ g.typeables → keep v = true) {out : Group}
    (h : x.expandGroup g marked n = .ok (out, k)) (hnodup : (x.hiddenIn n g.statements).Nodup) :
    Shadow keep (x.hiddenIn n g.statements) [] (out.solutions (graph.reading ops))
      ((x.withMarkers g marked).solutions (x.reading graph ops)) := by
  have hunit : Shadow keep [] [] .unit .unit := by
    refine Shadow.plain hkeep ?_
    rintro _ rfl v hv
    cases hv
  -- The group starts with nothing, so all that it leaves was written in it and its filters see it.
  have hcarried := hg h (by rwa [List.nil_append]) hunit
  rw [List.nil_append, List.nil_append] at hcarried
  refine hcarried.filtered (fun e he v hv => hown v ?_) (fun e he => ?_) (fun e he => ?_)
  · exact Group.typeables_of_filter (filter_mem_withMarkers.1 he) hv
  · exact filter_mem_expandGroup h (filter_mem_withMarkers.1 he)
  · exact (filter_of_expandGroup h he).imp_left filter_mem_withMarkers.2

/-- The groups of a union have different hidden variables. -/
theorem Carries.alternatives (hgs : ∀ g ∈ gs, x.Carries keep graph ops g)
    (hown : ∀ g ∈ gs, ∀ v, .var v ∈ g.typeables → keep v = true) {outs : List Group}
    (h : x.expandGroups gs marked n = .ok (outs, k))
    (hnodup : (x.hiddenIn n (gs.flatMap Group.statements)).Nodup) :
    Shadow keep (x.hiddenIn n (gs.flatMap Group.statements)) []
      (Group.alternatives (graph.reading ops) outs)
      (Group.alternatives (x.reading graph ops) (x.withMarkersAll gs marked)) := by
  induction gs generalizing n outs with
  | nil =>
    rw [expandGroups] at h
    cases h
    refine Shadow.plain hkeep ?_
    rintro _ ⟨⟩
  | cons g gs ih =>
    obtain ⟨inner, n', inners, hinner, hinners, rfl⟩ := expandGroups_cons_ok.1 h
    rw [List.flatMap_cons, x.hiddenIn_append, ← x.numbered_of_expandGroup hinner] at hnodup ⊢
    obtain ⟨hfirst, hrest, _⟩ := List.nodup_append.1 hnodup
    have hone :=
      (hgs g List.mem_cons_self).solutions hkeep (hown g List.mem_cons_self) hinner hfirst
    have hothers := ih (fun g' hg' => hgs g' (List.mem_cons_of_mem _ hg'))
      (fun g' hg' => hown g' (List.mem_cons_of_mem _ hg')) hinners hrest
    exact hone.or hothers

end

variable {graph ops}

theorem Carries.append {g g' : Group} (hg : x.Carries keep graph ops g)
    (hg' : x.Carries keep graph ops g') : x.Carries keep graph ops (g ++ g') := by
  intro marked n k out names written as bs h hnodup hshadow
  obtain ⟨first, n', rest, hfirst, hrest, rfl⟩ := expandGroup_append_ok.1 h
  rw [Group.statements_append, x.hiddenIn_append, ← x.numbered_of_expandGroup hfirst,
    ← List.append_assoc] at hnodup ⊢
  rw [Group.matchFrom_append, withMarkers_append, Group.matchFrom_append, ← List.append_assoc]
  exact hg' hrest hnodup (hg hfirst (List.nodup_append.1 hnodup).1 hshadow)

/-- What a single pattern becomes is what the group of it becomes. -/
theorem expandPattern_of_singleton {p : Pattern} {marked : List Variable} {n k : Nat} {out : Group}
    (h : x.expandGroup [p] marked n = .ok (out, k)) :
    x.expandPattern p marked n = .ok (out, x.mark marked p, k) := by
  obtain ⟨first, n', rest, hfirst, hrest, rfl⟩ := expandGroup_cons_ok.1 h
  rw [expandGroup] at hrest
  cases hrest
  rwa [List.append_nil]

include hbuild hkeep in
theorem carries_statement {s : Statement} (hown : ∀ v, s.mentions v = true → keep v = true) :
    x.Carries keep graph ops [.statement s] := by
  intro marked n k out names written as bs h hnodup hshadow
  obtain ⟨_, made, hmade, rfl⟩ := x.expandPattern_ok (expandPattern_of_singleton h)
  rw [Group.statements_statement, Group.statements_nil, hiddenIn, hiddenIn, List.append_nil]
    at hnodup ⊢
  have hdisjoint : ∀ v ∈ names, v ∉ x.hidden n s := by
    intro v hv hv'
    exact (List.nodup_append.1 hnodup).2.2 v hv v hv' rfl
  have hmarked : ∀ v ∈ x.unmarked marked s, keep v = true := by
    intro v hv
    rcases (mem_unmarked.1 hv).1 with hsubject | hobject
    · exact hown v (Statement.mentions_eq_true.2 (.inl hsubject))
    · exact hown v (Statement.mentions_eq_true.2 (.inr (.inr hobject)))
  have hstatement := shadow_statement hkeep hmade hown hshadow hdisjoint graph ops
  have hall := shadow_markers hbuild hkeep graph ops hmarked hstatement
  rw [Group.matchFrom_append, withMarkers_singleton, ← List.append_assoc]
  exact hall.mono (List.Subset.refl _) (List.subset_append_left _ _)

theorem carries_filter (e : Expression) : x.Carries keep graph ops [.filter e] := by
  intro marked n k out names written as bs h _ hshadow
  obtain ⟨_, rfl, rfl⟩ := x.expandPattern_ok (expandPattern_of_singleton h)
  rw [Group.statements_filter, Group.statements_nil, hiddenIn, List.append_nil,
    withMarkers_singleton]
  exact hshadow.mono (List.Subset.refl _) (List.subset_append_left _ _)

section
variable {g : Group} (hown : ∀ v, .var v ∈ g.typeables → keep v = true)
  (hg : x.Carries keep graph ops g)
include hkeep hown hg

theorem Carries.optional : x.Carries keep graph ops [.optional g] := by
  intro marked n k out names written as bs h hnodup hshadow
  obtain ⟨_, inner, hinner, rfl⟩ := x.expandPattern_ok (expandPattern_of_singleton h)
  rw [Group.statements_optional, Group.statements_nil, List.append_nil] at hnodup ⊢
  obtain ⟨_, hinside, hdisjoint⟩ := List.nodup_append.1 hnodup
  have hjoin := hshadow.leftJoin hkeep (hg.solutions hkeep hown hinner hinside)
    (fun v hv hv' => hdisjoint v hv v hv' rfl) fun v hv => x.hiddenIn_fresh hv
  rw [withMarkers_singleton]
  exact hjoin.mono (List.Subset.refl _) (List.subset_append_left _ _)

theorem Carries.minus : x.Carries keep graph ops [.minus g] := by
  intro marked n k out names written as bs h hnodup hshadow
  obtain ⟨_, inner, hinner, rfl⟩ := x.expandPattern_ok (expandPattern_of_singleton h)
  rw [Group.statements_minus, Group.statements_nil, List.append_nil] at hnodup ⊢
  obtain ⟨_, hinside, hdisjoint⟩ := List.nodup_append.1 hnodup
  have hleft := hshadow.minus hkeep (hg.solutions hkeep hown hinner hinside)
    (fun v hv hv' => hdisjoint v hv v hv' rfl) fun v hv => x.hiddenIn_fresh hv
  rw [withMarkers_singleton]
  exact hleft.mono (List.subset_append_left _ _) (List.subset_append_left _ _)

end

include hkeep in
theorem Carries.union {gs : List Group} (hown : ∀ g ∈ gs, ∀ v, .var v ∈ g.typeables → keep v = true)
    (hgs : ∀ g ∈ gs, x.Carries keep graph ops g) : x.Carries keep graph ops [.union gs] := by
  intro marked n k out names written as bs h hnodup hshadow
  obtain ⟨_, inners, hinners, rfl⟩ := x.expandPattern_ok (expandPattern_of_singleton h)
  rw [Group.statements_union, Group.statements_nil, List.append_nil] at hnodup ⊢
  obtain ⟨_, hinside, hdisjoint⟩ := List.nodup_append.1 hnodup
  have hjoin := hshadow.join (Carries.alternatives hkeep hgs hown hinners hinside)
    (fun v hv hv' => hdisjoint v hv v hv' rfl) fun v hv => x.hiddenIn_fresh hv
  rw [withMarkers_singleton]
  exact hjoin.mono (List.Subset.refl _) (List.subset_append_left _ _)

include hbuild hkeep in
/-- **What a group becomes asks for what the group asks for**, pattern by pattern. -/
theorem carries {g : Group} (hown : ∀ v, .var v ∈ g.typeables → keep v = true) :
    x.Carries keep graph ops g := by
  -- A group is its first pattern and the rest; for both there is a lemma, and they append.
  induction g using Group.by_patterns with
  | nil =>
    intro marked n k out names written as bs h _ hshadow
    rw [expandGroup] at h
    cases h
    rw [Group.statements_nil, hiddenIn, List.append_nil, List.append_nil, withMarkers]
    exact hshadow
  | statement s ps ih =>
    rw [Group.typeables_statement] at hown
    refine (carries_statement hbuild hkeep fun v hv => ?_).append
      (ih fun v hv => hown v (List.mem_append_right _ hv))
    exact hown v (List.mem_append_left _ (Statement.mentions_iff.1 hv))
  | optional g ps ihg ih =>
    rw [Group.typeables_optional] at hown
    have hinner : ∀ v, .var v ∈ g.typeables → keep v = true :=
      fun v hv => hown v (List.mem_append_left _ hv)
    exact ((ihg hinner).optional hkeep hinner).append
      (ih fun v hv => hown v (List.mem_append_right _ hv))
  | union gs ps ihg ih =>
    rw [Group.typeables_union] at hown
    have hinner : ∀ g ∈ gs, ∀ v, .var v ∈ g.typeables → keep v = true := fun g hg v hv =>
      hown v (List.mem_append_left _ (List.mem_flatMap.2 ⟨g, hg, hv⟩))
    exact (Carries.union hkeep hinner fun g hg => ihg g hg (hinner g hg)).append
      (ih fun v hv => hown v (List.mem_append_right _ hv))
  | filter e ps ih =>
    rw [Group.typeables_filter] at hown
    exact (carries_filter e).append (ih fun v hv => hown v (List.mem_append_right _ hv))
  | minus g ps ihg ih =>
    rw [Group.typeables_minus] at hown
    have hinner : ∀ v, .var v ∈ g.typeables → keep v = true :=
      fun v hv => hown v (List.mem_append_left _ hv)
    exact ((ihg hinner).minus hkeep hinner).append
      (ih fun v hv => hown v (List.mem_append_right _ hv))

end

end Expander

/-- **Expansion keeps the meaning.** Take a body without reserved names, in which no two values are
read by the same variable for their content and no two links come by the same name. The solutions of
what it becomes, over any graph and seen through the variables of the body, are the solutions of the
body with its deletion markers, where a statement asks for a current value, for a link or for a
triple. -/
theorem expansion_keeps_meaning {x : Expander} {defs : Definitions}
    (hbuild : Ontology.build defs = .ok x.ontology) {body out : Group}
    (hrun : x.expand body = .ok out) (hnames : ∀ v ∈ body.vars, v.isReserved = false)
    (hcontents : (x.contents body.statements).Nodup) (hlinks : (x.linkNames body.statements).Nodup)
    (graph : Graph) (ops : Operators) (m : Solution) :
    (∃ m', out.solutions (graph.reading ops) m' ∧
      m'.restrict (fun v => decide (v ∈ body.vars)) = m) ↔
    (x.withMarkers body []).solutions (x.reading graph ops) m := by
  obtain ⟨⟨_, n⟩, hgroup, rfl⟩ := map_eq_ok.1 hrun
  have hkeep : ∀ v, decide (v ∈ body.vars) = true → v.isReserved = false :=
    fun v hv => hnames v (of_decide_eq_true hv)
  have hown : ∀ v, .var v ∈ body.typeables → decide (v ∈ body.vars) = true :=
    fun v hv => decide_eq_true (Group.mem_vars.2 hv)
  have hcarries : x.Carries (fun v => decide (v ∈ body.vars)) graph ops body :=
    Expander.carries hbuild hkeep hown
  have hshadow := hcarries.solutions hkeep hown hgroup (x.nodup_hiddenIn hcontents hlinks)
  exact (hshadow.seen_of_closed hkeep (fun v hv => x.hiddenIn_fresh hv) m).symm

/-- Over the skeleton: a link and a text that may be there, but not where the linked resource has a
value. -/
theorem expansion_keeps_meaning_nested :
    let types : Types := ⟨[(.var ⟨"r"⟩, .entity Base.resource true false),
      (.var ⟨"s"⟩, .entity Base.resource true false),
      (.var ⟨"text"⟩, .entity Xsd.string false false),
      (.var ⟨"v"⟩, .entity Base.textValue false true)]⟩
    let body : Group :=
      [.triple (.var ⟨"r"⟩) (.ofIri Base.hasLinkTo) (.var ⟨"s"⟩),
       .optional [.triple (.var ⟨"r"⟩) (.ofIri Base.hasValue) (.var ⟨"text"⟩)],
       .minus [.triple (.var ⟨"s"⟩) (.ofIri Base.hasValue) (.var ⟨"v"⟩)]]
    ∃ o out, Ontology.build {} = .ok o ∧
      let x : Expander := ⟨o, types⟩
      x.expand body = .ok out ∧ (∀ v ∈ body.vars, v.isReserved = false) ∧
      (x.contents body.statements).Nodup ∧ (x.linkNames body.statements).Nodup ∧
      ∀ (graph : Graph) (ops : Operators) (m : Solution),
        (∃ m', out.solutions (graph.reading ops) m' ∧
          m'.restrict (fun v => decide (v ∈ body.vars)) = m) ↔
        (x.withMarkers body []).solutions (x.reading graph ops) m := by
  intro types body
  obtain ⟨o, hbuild⟩ := Ontology.build_skeleton
  let checked (o : Ontology) : Bool :=
    let x : Expander := ⟨o, types⟩
    (x.expand body).isOk && decide (x.contents body.statements).Nodup &&
      decide (x.linkNames body.statements).Nodup
  have hchecked : ((Ontology.build {}).toOption.map checked) = some true := by decide +kernel
  rw [hbuild] at hchecked
  have hparts : checked o = true := Option.some.inj hchecked
  simp only [checked, Bool.and_eq_true, decide_eq_true_eq] at hparts
  obtain ⟨⟨hok, hcontents⟩, hlinks⟩ := hparts
  have hnames : ∀ v ∈ body.vars, v.isReserved = false := by decide
  cases hrun : (⟨o, types⟩ : Expander).expand body with
  | error fault =>
    rw [hrun] at hok
    cases hok
  | ok out =>
    exact ⟨o, out, hbuild, hrun, hnames, hcontents, hlinks,
      expansion_keeps_meaning hbuild hrun hnames hcontents hlinks⟩

end OntoQuery
