import OntoQuery.Proofs.Finishing
import OntoQuery.Proofs.Marking

/-!
# The permissions of resources

Whoever gets the results of a query needs the permissions of every resource in them.
`resource_permissions_bound` says that they are always there: each resource variable has its
deletion marker, right after it the statement that binds its permissions, and the compiled query
reports the binding. Ordering by content comes after the permissions are bound, and it only adds
statements (`Expander.orderByContent_gains`).
-/

namespace OntoQuery

/-! ## Statements added for the order -/

namespace Group

/-- The second group has the statements of the first, and otherwise only some that `new` allows. -/
structure Gains (new : Statement → Prop) (g g' : Group) : Prop where
  keeps : ∀ t ∈ g.statements, t ∈ g'.statements
  adds : ∀ t ∈ g'.statements, t ∈ g.statements ∨ new t

section
variable {new : Statement → Prop}

theorem Gains.refl (g : Group) : Gains new g g :=
  ⟨fun _ ht => ht, fun _ ht => .inl ht⟩

theorem Gains.trans {g g' g'' : Group} (h : Gains new g g') (h' : Gains new g' g'') :
    Gains new g g'' where
  keeps t ht := h'.keeps t (h.keeps t ht)
  adds t ht := by
    rcases h'.adds t ht with ht | ht
    · exact h.adds t ht
    · exact .inr ht

theorem Gains.imp {new' : Statement → Prop} (h : ∀ t, new t → new' t) {g g' : Group}
    (hg : Gains new g g') : Gains new' g g' :=
  ⟨hg.keeps, fun t ht => (hg.adds t ht).imp_right (h t)⟩

theorem Gains.append {g g' k k' : Group} (h : Gains new g g') (h' : Gains new k k') :
    Gains new (g ++ k) (g' ++ k') := by
  constructor
  · intro t ht
    rw [statements_append, List.mem_append] at ht ⊢
    exact ht.imp (h.keeps t) (h'.keeps t)
  · intro t ht
    rw [statements_append, List.mem_append] at ht ⊢
    rcases ht with ht | ht
    · exact (h.adds t ht).imp .inl id
    · exact (h'.adds t ht).imp .inr id

theorem Gains.optional {g g' : Group} (h : Gains new g g') :
    Gains new [.optional g] [.optional g'] := by
  constructor
  · intro t ht
    simp only [statements_optional, statements_nil, List.append_nil] at ht ⊢
    exact h.keeps t ht
  · intro t ht
    simp only [statements_optional, statements_nil, List.append_nil] at ht ⊢
    exact h.adds t ht

theorem Gains.union {gs : List Group} {f : Group → Group} (h : ∀ g ∈ gs, Gains new g (f g)) :
    Gains new [.union gs] [.union (gs.map f)] := by
  constructor
  · intro t ht
    simp only [statements_union, statements_nil, List.append_nil, List.mem_flatMap] at ht ⊢
    obtain ⟨g, hg, ht⟩ := ht
    exact ⟨f g, List.mem_map.2 ⟨g, hg, rfl⟩, (h g hg).keeps t ht⟩
  · intro t ht
    simp only [statements_union, statements_nil, List.append_nil, List.mem_flatMap] at ht ⊢
    obtain ⟨_, hmem, ht⟩ := ht
    obtain ⟨g, hg, rfl⟩ := List.mem_map.1 hmem
    exact ((h g hg).adds t ht).imp (fun ht => ⟨g, hg, ht⟩) id

variable {v : Variable} {s : Statement}

theorem extend_gains (hs : new s) {g : Group} {inside : Group × Bool} (h : Gains new g inside.1) :
    Gains new g (extend v s g inside).1 := by
  unfold extend
  split
  · constructor
    · intro t ht
      rw [statements_append]
      exact List.mem_append_left _ ht
    · intro t ht
      rw [statements_append, List.mem_append, statements_statement, statements_nil,
        List.mem_singleton] at ht
      rcases ht with ht | rfl
      · exact .inl ht
      · exact .inr hs
  · exact h

theorem addInsideAll_eq_map (gs : List Group) :
    (addInsideAll v s gs).1 = gs.map fun g => (extend v s g (addInside v s g)).1 := by
  induction gs with
  | nil => rfl
  | cons g gs ih => simp only [addInsideAll, List.map_cons, ih]

/-- Adding a statement inside a group changes no other statement. -/
theorem addInside_gains (hs : new s) (g : Group) : Gains new g (addInside v s g).1 := by
  induction g using Group.by_patterns with
  | nil => exact .refl []
  | statement t ps ih => exact Gains.append (.refl [.statement t]) ih
  | optional g ps ihg ih => exact (Gains.optional (extend_gains hs ihg)).append ih
  | union gs ps ihg ih =>
    have hgs : Gains new [.union gs] [.union (addInsideAll v s gs).1] := by
      rw [addInsideAll_eq_map]
      exact .union fun g hg => extend_gains hs (ihg g hg)
    exact hgs.append ih
  | filter e ps ih => exact Gains.append (.refl [.filter e]) ih
  | minus g ps _ ih => exact Gains.append (.refl [.minus g]) ih

theorem addWhereBound?_gains (hs : new s) {g g' : Group} (h : g.addWhereBound? v s = some g') :
    Gains new g g' := by
  have hgains := extend_gains (v := v) hs (addInside_gains (v := v) hs g)
  unfold addWhereBound? at h
  split at h
  · rename_i out heq
    rw [heq] at hgains
    cases h
    exact hgains
  · cases h

end

end Group

/-- The statement binds the content of a value node that results are ordered by. -/
def Statement.BindsContent (s : Statement) : Prop :=
  ∃ (v : Variable) (kind : ValueKind),
    s = ⟨.var v, .ofIri kind.contentPredicate, .var v.orderContent⟩

/-- The statement binds the content of a value node that is one of the order keys. -/
def Expander.BindsKey (x : Expander) (cs : List OrderCriterion) (s : Statement) : Prop :=
  ∃ c ∈ cs, ∃ kind : ValueKind, x.orderKind? c.key = some kind ∧
    s = ⟨.var c.key, .ofIri kind.contentPredicate, .var c.key.orderContent⟩

theorem Expander.BindsKey.cons {x : Expander} {cs : List OrderCriterion} {s : Statement}
    (h : x.BindsKey cs s) (c : OrderCriterion) : x.BindsKey (c :: cs) s := by
  obtain ⟨c', hc', hbinds⟩ := h
  exact ⟨c', List.mem_cons_of_mem c hc', hbinds⟩

/-- An order key as results are ordered by it: the content of a value node, and anything else
itself. -/
def Expander.orderKey (x : Expander) (c : OrderCriterion) : OrderCriterion :=
  if (x.orderKind? c.key).isSome then { c with key := c.key.orderContent } else c

theorem Expander.orderByContent_cons_ok {x : Expander} {c : OrderCriterion}
    {cs order : List OrderCriterion} {body body' : Group}
    (h : x.orderByContent (c :: cs) body = .ok (order, body')) :
    ∃ rest middle, order = x.orderKey c :: rest ∧ x.orderByContent cs middle = .ok (rest, body') ∧
      (x.orderKind? c.key = none ∧ middle = body ∨ ∃ kind, x.orderKind? c.key = some kind ∧
        body.addWhereBound? c.key ⟨.var c.key, .ofIri kind.contentPredicate,
          .var c.key.orderContent⟩ = some middle) := by
  rw [orderByContent] at h
  split at h
  · rename_i hkind
    obtain ⟨⟨rest, _⟩, hrest, h⟩ := bind_eq_ok.1 h
    cases pure_eq_ok.1 h
    exact ⟨rest, body, by simp [orderKey, hkind], hrest, .inl ⟨hkind, rfl⟩⟩
  · rename_i kind hkind
    dsimp only at h
    split at h
    · cases h
    · rename_i middle hmiddle
      obtain ⟨⟨rest, _⟩, hrest, h⟩ := bind_eq_ok.1 h
      cases pure_eq_ok.1 h
      exact ⟨rest, middle, by simp [orderKey, hkind], hrest, .inr ⟨kind, hkind, hmiddle⟩⟩

/-- Ordering by content binds contents of order keys, and changes nothing else in a body. -/
theorem Expander.orderByContent_adds {x : Expander} {cs order : List OrderCriterion}
    {body body' : Group} (h : x.orderByContent cs body = .ok (order, body')) :
    body.Gains (x.BindsKey cs) body' := by
  induction cs generalizing body order with
  | nil =>
    rw [orderByContent] at h
    cases h
    exact .refl _
  | cons c cs ih =>
    obtain ⟨rest, middle, _, hrest, ⟨_, rfl⟩ | ⟨kind, hkind, hadded⟩⟩ := orderByContent_cons_ok h
    · exact (ih hrest).imp fun _ hs => hs.cons c
    · have hown : x.BindsKey (c :: cs) ⟨.var c.key, .ofIri kind.contentPredicate,
          .var c.key.orderContent⟩ := ⟨c, List.mem_cons_self, kind, hkind, rfl⟩
      exact (Group.addWhereBound?_gains hown hadded).trans ((ih hrest).imp fun _ hs => hs.cons c)

theorem Expander.orderByContent_gains {x : Expander} {cs order : List OrderCriterion}
    {body body' : Group} (h : x.orderByContent cs body = .ok (order, body')) :
    body.Gains Statement.BindsContent body' := by
  refine (orderByContent_adds h).imp ?_
  rintro _ ⟨c, _, kind, _, rfl⟩
  exact ⟨c.key, kind, rfl⟩

/-! ## Bindings of permissions -/

namespace Statement

/-- The statement that binds the permissions of a variable. -/
def bindsPermissions (v : Variable) : Statement :=
  ⟨.var v, .ofIri Base.hasPermissions, .var v.permissions⟩

theorem withPermission_deletionMarker (v : Variable) :
    (deletionMarker (.var v)).withPermission = [deletionMarker (.var v), bindsPermissions v] := rfl

/-- Beside the statement itself, only the permissions of the variable that it marks are bound. -/
theorem mem_withPermission {s t : Statement} (h : t ∈ s.withPermission) :
    t = s ∨ ∃ v, s.isDeletionMarker = true ∧ s.subject = .var v ∧ t = bindsPermissions v := by
  rcases List.mem_cons.1 h with rfl | h
  · exact .inl rfl
  · unfold permission? at h
    split at h
    · rename_i hmarker
      simp only [Option.mem_toList, Option.map_eq_some_iff] at h
      obtain ⟨v, hv, rfl⟩ := h
      have hsubject : s.subject = .var v := Entity.var?_eq_some.1 hv
      exact .inr ⟨v, hmarker, hsubject, by rw [hsubject, bindsPermissions]⟩
    · cases h

theorem permissionBinding?_eq_some {s : Statement} {b : PermissionBinding} :
    s.permissionBinding? = some b ↔ s.subject = .var b.node ∧ s.object = .var b.permissions ∧
      s.predicate.isIri Base.hasPermissions = true := by
  obtain ⟨subject, predicate, object⟩ := s
  obtain ⟨node, permissions⟩ := b
  cases subject <;> cases object <;> simp [permissionBinding?, and_comm, and_assoc]

end Statement

theorem Group.mem_permissionBindings {g : Group} {b : PermissionBinding} :
    b ∈ g.permissionBindings ↔ ∃ s ∈ g.statements, s.permissionBinding? = some b := by
  rw [permissionBindings, List.mem_eraseDups, List.mem_filterMap]

/-- A deletion marker in a group has the permissions of its variable right after it. -/
theorem Group.infix_withPermissions {g : Group} {v : Variable} (h : .marker v ∈ g) :
    [.marker v, .statement (.bindsPermissions v)] <:+: g.withPermissions := by
  obtain ⟨before, after, rfl⟩ := List.append_of_mem h
  refine ⟨withPermissions before, withPermissions after, ?_⟩
  rw [withPermissions_rewriting.append, Pattern.marker, withPermissions_rewriting.statement,
    Statement.withPermission_deletionMarker, List.append_assoc]
  rfl

theorem ContentQuery.counted_ok {c : ContentQuery} {count : CountQuery}
    (h : c.counted = .ok count) :
    c.body.mentions c.mainResource = true ∧ count = ⟨c.mainResource, c.body⟩ := by
  unfold counted at h
  split at h
  · rename_i hmentions
    exact ⟨hmentions, (Except.ok.inj h).symm⟩
  · cases h

/-- What the stages give, in a query that is compiled. -/
theorem Query.toStore_stages {q : Query} {o : Ontology} {types : Types} {d : Dialect}
    {size : UInt32} {stored : StoreQuery} (h : q.toStore o types d size = .ok stored) :
    q.mainResource = .ok stored.content.mainResource ∧
    (∃ expanded order, Expander.expand ⟨o, types⟩ q.body.flatten = .ok expanded ∧
      Expander.orderByContent ⟨o, types⟩ q.orderBy (expanded.finished d o) =
        .ok (order, stored.content.body)) ∧
    Expander.storeTemplate ⟨o, types⟩ q.template = .ok stored.content.template ∧
    stored.content.counted = .ok stored.count ∧
    stored.permissions = stored.content.body.permissionBindings := by
  obtain ⟨main, hmain, h⟩ := bind_eq_ok.1 h
  obtain ⟨body, hbody, h⟩ := bind_eq_ok.1 h
  obtain ⟨⟨order, ordered⟩, horder, h⟩ := bind_eq_ok.1 h
  obtain ⟨template, htemplate, h⟩ := bind_eq_ok.1 h
  obtain ⟨count, hcount, h⟩ := bind_eq_ok.1 h
  cases pure_eq_ok.1 h
  obtain ⟨expanded, hexpanded, hbody⟩ := bind_eq_ok.1 hbody
  cases pure_eq_ok.1 hbody
  exact ⟨hmain, ⟨expanded, order, hexpanded, horder⟩, htemplate, hcount, rfl⟩

/-- The second query of a page is the count of the first. -/
theorem Query.toStore_counted {q : Query} {o : Ontology} {types : Types} {d : Dialect}
    {size : UInt32} {stored : StoreQuery} (h : q.toStore o types d size = .ok stored) :
    stored.content.counted = .ok stored.count := by
  obtain ⟨_, _, _, hcount, _⟩ := Query.toStore_stages h
  exact hcount

/-- What the body of a query for the store is made of. -/
theorem Query.toStore_ok {q : Query} {o : Ontology} {types : Types} {d : Dialect} {size : UInt32}
    {stored : StoreQuery} (h : q.toStore o types d size = .ok stored) :
    ∃ expanded, Expander.expand ⟨o, types⟩ q.body.flatten = .ok expanded ∧
      (expanded.finished d o).Gains Statement.BindsContent stored.content.body ∧
      stored.permissions = stored.content.body.permissionBindings := by
  obtain ⟨_, ⟨expanded, _, hexpanded, horder⟩, _, _, hpermissions⟩ := Query.toStore_stages h
  exact ⟨expanded, hexpanded, Expander.orderByContent_gains horder, hpermissions⟩

/-- The statements of an expanded body with its permissions are in the body for the store. -/
theorem mem_body_of_expanded {expanded body : Group} {d : Dialect} {o : Ontology}
    (h : (expanded.finished d o).Gains Statement.BindsContent body) {t : Statement}
    (ht : t ∈ expanded.withPermissions.statements) : t ∈ body.statements := by
  apply h.keeps
  rw [Group.finished, Group.statements_compensate]
  exact List.mem_flatMap.2 ⟨t, ht, Statement.self_mem_variants d o t⟩

/-- A deletion marker anywhere in an expanded body leads to a binding of permissions. -/
theorem mem_permissions_of_marker {expanded body : Group} {d : Dialect} {o : Ontology}
    (h : (expanded.finished d o).Gains Statement.BindsContent body) {s : Statement}
    (hs : s ∈ expanded.statements) (hmarker : s.isDeletionMarker = true) {v : Variable}
    (hv : s.subject = .var v) : ⟨v, v.permissions⟩ ∈ body.permissionBindings := by
  have hpermission : .bindsPermissions v ∈ s.withPermission := by
    refine List.mem_cons_of_mem _ ?_
    simp [Statement.permission?, hmarker, hv, Entity.var?, Statement.bindsPermissions]
  exact Group.mem_permissionBindings.2
    ⟨_, mem_body_of_expanded h (Group.mem_withPermissions hs hpermission), rfl⟩

namespace Expander
variable {x : Expander}

/-- **The permissions of every resource are bound.** Take a body that can be expanded, a group in it
at any depth, and a resource variable in a statement of the group itself. What becomes of the group,
or earlier what becomes of a group around it, marks the variable as not deleted and binds its
permissions right after; no group marks a variable twice; and a query with this body, for either
store, reports the binding. -/
theorem resource_permissions_bound {body expanded : Group}
    (hrun : x.expand body.flatten = .ok expanded) :
    (∀ befores g, body.Inside befores g → ∃ others site,
      x.Reaches ⟨body.flatten, [], 0⟩ others site ∧ site.group = g.flatten ∧
        List.Forall₂ x.Becomes (befores.map Group.flatten) others) ∧
    ∀ others site, x.Reaches ⟨body.flatten, [], 0⟩ others site →
      ∃ made n, x.expandSite site = .ok (made, n) ∧
        expanded.withPermissions.Inside (others.map Group.withPermissions) made.withPermissions ∧
        (∃ pieces, List.Forall₂ x.Makes site.group pieces ∧ made = pieces.flatMap Piece.patterns ∧
          (pieces.flatMap Piece.new).Nodup) ∧
        ∀ s v, .statement s ∈ site.group → s.Joins v → x.types.isResource (.var v) = true →
          (∃ g ∈ made :: others,
            [.marker v, .statement (.bindsPermissions v)] <:+: g.withPermissions) ∧
          ∀ (q : Query) d size stored, q.body = body →
            q.toStore x.ontology x.types d size = .ok stored →
              ⟨v, v.permissions⟩ ∈ stored.permissions := by
  obtain ⟨⟨_, n⟩, hwhole, rfl⟩ := map_eq_ok.1 hrun
  constructor
  · intro befores g hg
    exact exists_reaches (hg.map Group.flatten_structural) hwhole
  · intro others site hsite
    obtain ⟨made, k, hmade, hinside⟩ := reaches_inside hsite hwhole
    obtain ⟨pieces, hpieces, hpatterns, hnodup, _⟩ := exists_pieces hmade
    refine ⟨made, k, hmade, hinside.map Group.withPermissions_rewriting.structural,
      ⟨pieces, hpieces, hpatterns, hnodup⟩, ?_⟩
    intro s v hs hv hr
    obtain ⟨g, hg, hmarker⟩ := marker_of_reaches hsite rfl hmade hs hv hr
    refine ⟨⟨g, hg, Group.infix_withPermissions hmarker⟩, ?_⟩
    rintro q d size stored rfl hstored
    obtain ⟨expanded, hexpanded, hgains, hpermissions⟩ := Query.toStore_ok hstored
    cases hrun.symm.trans hexpanded
    rw [hpermissions]
    exact mem_permissions_of_marker hgains
      (hinside.statements_subset hg (Group.mem_statements hmarker)) rfl rfl

/-- A resource that is marked in the body itself needs no marker in the OPTIONAL. -/
theorem resource_permissions_bound_optional :
    let x : Expander := ⟨⟨[], []⟩, ⟨[(.var ⟨"r"⟩, .entity Base.resource true false)]⟩⟩
    let s : Statement := ⟨.var ⟨"r"⟩, .ofIri Rdf.type, .ofIri Base.resource⟩
    let q : Query :=
      { schema := .complex, template := [s], body := [.statement s, .optional [.statement s]] }
    let written : Group := [.statement s, .marker ⟨"r"⟩]
    let site : Site := ⟨[.statement s], [⟨"r"⟩], 0⟩
    (∃ expanded, x.expand q.body.flatten = .ok expanded) ∧
      x.Reaches ⟨q.body.flatten, [], 0⟩ [written] site ∧ s.Joins ⟨"r"⟩ ∧
      x.types.isResource (.var ⟨"r"⟩) = true ∧
      (∃ made n, x.expandSite site = .ok (made, n) ∧ ∃ g ∈ [made, written],
        [.marker ⟨"r"⟩, .statement (.bindsPermissions ⟨"r"⟩)] <:+: g.withPermissions) ∧
      ∃ stored, q.toStore x.ontology x.types .fuseki 25 = .ok stored ∧
        ⟨⟨"r"⟩, ⟨"r__permissions"⟩⟩ ∈ stored.permissions := by
  intro x s q written site
  have hrun : ∃ expanded, x.expand q.body.flatten = .ok expanded := ⟨_, rfl⟩
  have hstored : ∃ stored, q.toStore x.ontology x.types .fuseki 25 = .ok stored := ⟨_, rfl⟩
  have hsite : x.Reaches ⟨q.body.flatten, [], 0⟩ [written] site :=
    .into (@Enters.optional x [.statement s] [] [.statement s] written [] 0 0 rfl) (.here _)
  obtain ⟨expanded, hrun⟩ := hrun
  obtain ⟨stored, hstored⟩ := hstored
  obtain ⟨made, n, hmade, _, _, hbound⟩ := (resource_permissions_bound hrun).2 _ _ hsite
  obtain ⟨hbinding, hreported⟩ := hbound s ⟨"r"⟩ List.mem_cons_self (.inl rfl) rfl
  exact ⟨⟨expanded, hrun⟩, hsite, .inl rfl, rfl, ⟨made, n, hmade, hbinding⟩, stored, hstored,
    hreported q .fuseki 25 stored rfl hstored⟩

end Expander

end OntoQuery
