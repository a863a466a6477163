import OntoQuery.Proofs.Naming
import OntoQuery.Proofs.Permissions
import OntoQuery.Typing.Inference

/-!
# The permissions of values

A value node gets its deletion marker, and with it a binding of its permissions, when it is the
object of a value statement. A variable can be known to be a value without that, by `rdf:type` or by
an accessor of the content alone, and then nothing marks it: the results hold a value whose
permissions nobody reports (`text_value_without_permissions`). `value_permissions_bound_iff` says
exactly which values have them.

In one direction every marker leads to a binding. In the other, the names of permissions are
reserved, so in a checked query only a marker of the variable can have led to the binding, and what
wrote the marker is found among the statements of the query.
-/

namespace OntoQuery

/-! ## What a query says -/

theorem Query.body_of_check {q : Query} {types : Types} (h : q.check types = .ok ()) {s : Statement}
    (hs : s ∈ q.body.statements) : s.check q.schema types .body = .ok () := by
  obtain ⟨_, hparts, _⟩ := bind_eq_ok.1 h
  exact of_forM_ok hparts _ (Group.visit_of_mem hs)

theorem Query.template_of_check {q : Query} {types : Types} (h : q.check types = .ok ())
    {s : Statement} (hs : s ∈ q.template) : s.check q.schema types .template = .ok () := by
  obtain ⟨_, _, h⟩ := bind_eq_ok.1 h
  obtain ⟨_, _, h⟩ := bind_eq_ok.1 h
  exact of_forM_ok h s hs

/-- No variable in a statement of a checked query has a reserved name. -/
theorem Query.not_reserved_of_check {q : Query} {types : Types} (h : q.check types = .ok ())
    {s : Statement} (hs : s ∈ q.body.statements) {v : Variable} (hv : s.Joins v) :
    v.isReserved = false := by
  obtain ⟨_, hnames, _⟩ := bind_eq_ok.1 (q.body_of_check h hs)
  have hmem : .var v ∈ s.entities := by
    rcases hv with hv | hv
    · simp [Statement.entities, hv]
    · simp [Statement.entities, hv]
  have hcheck : v.check = .ok () := of_forM_ok hnames _ hmem
  unfold Variable.check at hcheck
  split at hcheck
  · cases hcheck
  · rename_i hreserved
    simpa using hreserved

/-! ## What marks a value -/

theorem Statement.isDeletionMarker_iff {s : Statement} :
    s.isDeletionMarker = true ↔ s.subject.isVariable = true ∧
      s.predicate.isIri Base.isDeleted = true ∧ s.object = .lit (.boolean false) := by
  simp [Statement.isDeletionMarker, and_assoc]

theorem ValueKind.contentPredicate_ne_isDeleted (kind : ValueKind) :
    kind.contentPredicate ≠ Base.isDeleted := by
  cases kind <;> decide

namespace Expander
variable {x : Expander}

/-- The statement leads to the variable as to a value, or says itself that it is not deleted. -/
def Marks (x : Expander) (s : Statement) (v : Variable) : Prop :=
  (x.passage s = .ok .value ∧ s.object = .var v) ∨
    x.passage s = .ok .direct ∧ s.isDeletionMarker = true ∧ s.subject = .var v

/-- A marker is a statement of the caller's own, or is of the node of a value or of a link. -/
theorem Writes.marker_cases {s t : Statement} {n : Nat} (h : x.Writes s n t)
    (hmarker : t.isDeletionMarker = true) :
    (x.passage s = .ok .direct ∧ t = s) ∨
    (x.passage s = .ok .value ∧ t = .deletionMarker (x.node s n).1) ∨
    ∃ property, x.passage s = .ok (.link property) ∧
      t = .deletionMarker (.var (.linkValue s.subject property s.object)) := by
  obtain ⟨_, hpredicate, hobject⟩ := Statement.isDeletionMarker_iff.1 hmarker
  cases h with
  | direct hp => exact .inl ⟨hp, rfl⟩
  | toNode hp =>
    have hnode := x.node_not_literal s n
    rw [show (x.node s n).1 = .lit (.boolean false) from hobject] at hnode
    cases hnode
  | undeletedNode hp => exact .inr (.inl ⟨hp, rfl⟩)
  | newerNode hp =>
    have hother : (Entity.ofIri Base.previousValue).isIri Base.isDeleted = false := by decide
    cases hpredicate.symm.trans hother
  | content kind hp => exact absurd (beq_iff_eq.1 hpredicate) kind.contentPredicate_ne_isDeleted
  | link hp hliteral =>
    rw [hobject] at hliteral
    cases hliteral
  | toLink linkValueProperty hp => cases hobject
  | linkObject hp =>
    have hother : (Entity.ofIri Rdf.object).isIri Base.isDeleted = false := by decide
    cases hpredicate.symm.trans hother
  | undeletedLink hp => exact .inr (.inr ⟨_, hp, rfl⟩)

/-- What wrote a marker of a variable whose name is not generated. -/
theorem marks_of_writes {s t : Statement} {n : Nat} (h : x.Writes s n t)
    (hmarker : t.isDeletionMarker = true) {v : Variable} (hv : t.subject = .var v)
    (hname : v.isReserved = false) : x.Marks s v := by
  obtain ⟨hp, rfl⟩ | ⟨hp, rfl⟩ | ⟨property, hp, rfl⟩ := h.marker_cases hmarker
  · exact .inr ⟨hp, hmarker, hv⟩
  · rcases x.node_eq_var hv with hv | ⟨index, rfl⟩
    · exact .inl ⟨hp, hv⟩
    · cases hname.symm.trans (Variable.valueNode_reserved _ _ _ _)
  · cases hv
    cases hname.symm.trans (Variable.linkValue_reserved _ _ _)

/-- An object that expansion adds is no variable for permissions. -/
theorem object_of_writes {s t : Statement} {n : Nat} (h : x.Writes s n t) {w : Variable}
    (hw : t.object = .var w) : s.object = .var w ∨ ∀ v : Variable, w ≠ v.permissions := by
  have atNode : (x.node s n).1 = .var w → s.object = .var w ∨ ∀ v : Variable,
      w ≠ v.permissions := by
    intro hnode
    rcases x.node_eq_var hnode with hobject | ⟨index, rfl⟩
    · exact .inl hobject
    · exact .inr (Variable.valueNode_ne_permissions _ _ _ index)
  cases h with
  | direct hp => exact .inl hw
  | toNode hp => exact atNode hw
  | undeletedNode hp => cases hw
  | newerNode hp => exact atNode hw
  | content kind hp => exact .inl hw
  | link hp hliteral => exact .inl hw
  | toLink linkValueProperty hp =>
    cases hw
    exact .inr (Variable.linkValue_ne_permissions _ _ _)
  | linkObject hp => exact .inl hw
  | undeletedLink hp => cases hw

/-! ## From statements to bindings -/

/-- A binding of the permissions of a variable comes from a marker of it, if no statement of the
expanded body has a variable for permissions as its object. -/
theorem marker_of_mem_permissions {expanded body : Group} {d : Dialect} {o : Ontology}
    (h : (expanded.finished d o).Gains Statement.BindsContent body) {v : Variable}
    (hnames : ∀ t ∈ expanded.statements, t.object ≠ .var v.permissions)
    (hmem : ⟨v, v.permissions⟩ ∈ body.permissionBindings) :
    ∃ t ∈ expanded.statements, t.isDeletionMarker = true ∧ t.subject = .var v := by
  obtain ⟨t, ht, hbinding⟩ := Group.mem_permissionBindings.1 hmem
  obtain ⟨hsubject, hobject, _⟩ := Statement.permissionBinding?_eq_some.1 hbinding
  rcases h.adds t ht with ht | ⟨u, kind, rfl⟩
  · rw [Group.finished, Group.statements_compensate] at ht
    obtain ⟨s, hs, ht⟩ := List.mem_flatMap.1 ht
    rw [Statement.subject_of_mem_variants ht] at hsubject
    have hobject := Statement.object_of_mem_variants ht hobject
    rw [Group.statements_withPermissions] at hs
    obtain ⟨r, hr, hs⟩ := List.mem_flatMap.1 hs
    rcases Statement.mem_withPermission hs with rfl | ⟨w, hmarker, hr', rfl⟩
    · exact absurd hobject (hnames s hr)
    · exact ⟨r, hr, hmarker, hr'.trans hsubject⟩
  · exact absurd (Entity.var.inj hobject) (Variable.orderContent_ne_permissions u v)

theorem statements_markers (vs : List Variable) :
    (markers vs).statements = vs.map fun v => .deletionMarker (.var v) := by
  rw [← Group.statements_map (vs.map fun v => .deletionMarker (.var v)), List.map_map]
  rfl

section
variable {ss outs : List Statement} (h : x.PiecesOf ss outs) {v : Variable}
include h

/-- What has been written comes from a statement, or marks a resource in it. -/
theorem PiecesOf.writes {t : Statement} (ht : t ∈ outs) :
    ∃ s ∈ ss, (∃ n, x.Writes s n t) ∨
      ∃ v, s.Joins v ∧ x.types.isResource (.var v) = true ∧ t = .deletionMarker (.var v) := by
  obtain ⟨pieces, hpieces, rfl⟩ := h
  obtain ⟨c, hc, ht⟩ := List.mem_flatMap.1 ht
  obtain ⟨s, hs, ⟨n, k, hown⟩, hnew⟩ := exists_of_mem_right hpieces hc
  refine ⟨s, hs, ?_⟩
  rw [Piece.patterns, Group.statements_append, statements_markers, List.mem_append] at ht
  rcases ht with ht | ht
  · exact .inl ⟨n, x.writes_of_expandStatement hown ht⟩
  · obtain ⟨v, hv, rfl⟩ := List.mem_map.1 ht
    exact .inr ⟨v, (hnew v hv).1, (hnew v hv).2, rfl⟩

theorem PiecesOf.object_ne_permissions
    (hnames : ∀ s ∈ ss, ∀ w, s.Joins w → w.isReserved = false) :
    ∀ t ∈ outs, t.object ≠ .var v.permissions := by
  intro t ht hobject
  obtain ⟨s, hs, ⟨n, hwrites⟩ | ⟨u, _, _, rfl⟩⟩ := h.writes ht
  · rcases object_of_writes hwrites hobject with hs' | hne
    · have hreserved := hnames s hs _ (.inr hs')
      rw [Variable.permissions_reserved] at hreserved
      cases hreserved
    · exact hne v rfl
  · cases hobject

theorem PiecesOf.marks_of_marker {t : Statement} (ht : t ∈ outs)
    (hmarker : t.isDeletionMarker = true) (hv : t.subject = .var v)
    (hname : v.isReserved = false) :
    x.types.isResource (.var v) = true ∨ ∃ s ∈ ss, x.Marks s v := by
  obtain ⟨s, hs, ⟨n, hwrites⟩ | ⟨u, _, hu, rfl⟩⟩ := h.writes ht
  · exact .inr ⟨s, hs, marks_of_writes hwrites hmarker hv hname⟩
  · cases hv
    exact .inl hu

/-- A statement that marks a value node leads to a marker of it. -/
theorem PiecesOf.marker_of_marks (hvalue : x.types.isValueNode (.var v) = true) {s : Statement}
    (hs : s ∈ ss) (hmarks : x.Marks s v) :
    ∃ t ∈ outs, t.isDeletionMarker = true ∧ t.subject = .var v := by
  obtain ⟨n, k, own, hown, hsubset⟩ := h.exists_own hs
  rcases hmarks with ⟨hp, hv⟩ | ⟨hp, hmarker, hv⟩
  · have hnode : (x.node s n).1 = .var v := by
      simp [node, objectIsNode, hv, hvalue, Entity.isLiteral, Entity.literal?]
    have hmem := Group.mem_statements (x.current_subset hp hown List.mem_cons_self)
    rw [hnode] at hmem
    exact ⟨_, hsubset hmem, rfl, rfl⟩
  · refine ⟨s, hsubset ?_, hmarker, hv⟩
    rcases x.expandStatement_ok hown with ⟨_, heq⟩ | ⟨hother, _⟩ | ⟨_, _, hother, _⟩
    · rw [heq]
      exact List.mem_cons_self
    · cases hp.symm.trans hother
    · cases hp.symm.trans hother

end

end Expander

/-- **Which values have their permissions bound.** Take a checked query that comes to the store, and
a variable in one of its statements that is a value. The permissions of the variable are reported
exactly if it is a resource too, or a statement leads to it as to a value, or a statement says that
it is not deleted. -/
theorem value_permissions_bound_iff {q : Query} {o : Ontology} {types : Types} {d : Dialect}
    {size : UInt32} {stored : StoreQuery} (hchecked : q.check types = .ok ())
    (hstored : q.toStore o types d size = .ok stored) {v : Variable}
    (hv : ∃ s ∈ q.body.statements, s.Joins v) (hvalue : types.isValueNode (.var v) = true) :
    ⟨v, v.permissions⟩ ∈ stored.permissions ↔ types.isResource (.var v) = true ∨
      ∃ s ∈ q.body.flatten.statements, Expander.Marks ⟨o, types⟩ s v := by
  obtain ⟨expanded, hexpanded, hgains, hpermissions⟩ := Query.toStore_ok hstored
  obtain ⟨⟨_, n⟩, hwhole, rfl⟩ := map_eq_ok.1 hexpanded
  have hpieces := Expander.statements_of_becomes ⟨_, _, _, hwhole⟩
  have hnames : ∀ s ∈ q.body.flatten.statements, ∀ w, s.Joins w → w.isReserved = false := by
    intro s hs w hw
    rw [Group.statements_flatten] at hs
    obtain ⟨t, ht, rfl⟩ := List.mem_map.1 hs
    exact Query.not_reserved_of_check hchecked ht (Statement.joins_flatten.1 hw)
  obtain ⟨s, hs, hv⟩ := hv
  rw [hpermissions]
  constructor
  · intro hmem
    obtain ⟨t, ht, hmarker, hsubject⟩ :=
      Expander.marker_of_mem_permissions hgains (hpieces.object_ne_permissions hnames) hmem
    exact hpieces.marks_of_marker ht hmarker hsubject (Query.not_reserved_of_check hchecked hs hv)
  · rintro (hr | ⟨t, ht, hmarks⟩)
    · have hflat : s.flatten ∈ q.body.flatten.statements := by
        rw [Group.statements_flatten]
        exact List.mem_map.2 ⟨s, hs, rfl⟩
      exact mem_permissions_of_marker hgains
        (Expander.marker_of_resource hwhole hflat (Statement.joins_flatten.2 hv) hr) rfl rfl
    · obtain ⟨u, hu, hmarker, hsubject⟩ := hpieces.marker_of_marks hvalue ht hmarks
      exact mem_permissions_of_marker hgains hu hmarker hsubject

/-- A value that a resource leads to has its permissions bound. -/
theorem value_permissions_bound_iff_object :
    let types : Types :=
      ⟨[(.var ⟨"p"⟩, .property Base.textValue true false),
        (.var ⟨"v"⟩, .entity Base.textValue false true)]⟩
    let s : Statement := ⟨.var ⟨"r"⟩, .var ⟨"p"⟩, .var ⟨"v"⟩⟩
    let q : Query := { schema := .simple, template := [s], body := [.optional [.statement s]] }
    q.check types = .ok () ∧ s ∈ q.body.statements ∧ s.Joins ⟨"v"⟩ ∧
      types.isValueNode (.var ⟨"v"⟩) = true ∧
      ∃ stored, q.toStore ⟨[], []⟩ types .fuseki 25 = .ok stored ∧
        (⟨⟨"v"⟩, Variable.permissions ⟨"v"⟩⟩ ∈ stored.permissions ↔
          types.isResource (.var ⟨"v"⟩) = true ∨
            ∃ t ∈ q.body.flatten.statements, Expander.Marks ⟨⟨[], []⟩, types⟩ t ⟨"v"⟩) ∧
        ⟨⟨"v"⟩, Variable.permissions ⟨"v"⟩⟩ ∈ stored.permissions := by
  intro types s q
  have hchecked : q.check types = .ok () := rfl
  have hs : s ∈ q.body.statements := List.mem_cons_self
  have hv : s.Joins ⟨"v"⟩ := .inr rfl
  have hstored : ∃ stored, q.toStore ⟨[], []⟩ types .fuseki 25 = .ok stored := ⟨_, rfl⟩
  obtain ⟨stored, hstored⟩ := hstored
  have hiff := value_permissions_bound_iff hchecked hstored ⟨s, hs, hv⟩ rfl
  exact ⟨hchecked, hs, hv, rfl, stored, hstored, hiff,
    hiff.2 (.inr ⟨s, List.mem_cons_self, .inl ⟨rfl, rfl⟩⟩)⟩

/-- Whether the query can be typed, checked and compiled over an ontology, and a variable that is a
value then comes without permissions. -/
def Query.leavesOut (q : Query) (v : Variable) : Except OntologyError Ontology → Bool
  | .error _ => false
  | .ok o =>
    match q.inferTypes o 32 with
    | .error _ => false
    | .ok types =>
      match q.check types, q.toStore o types .graphDb defaultPageSize with
      | .ok (), .ok stored =>
        types.isValueNode (.var v) && !stored.permissions.contains ⟨v, v.permissions⟩
      | _, _ => false

theorem Query.exists_of_leavesOut {q : Query} {v : Variable}
    {built : Except OntologyError Ontology} (h : q.leavesOut v built = true) :
    ∃ o types stored, built = .ok o ∧ q.inferTypes o 32 = .ok types ∧ q.check types = .ok () ∧
      q.toStore o types .graphDb defaultPageSize = .ok stored ∧
      types.isValueNode (.var v) = true ∧ ⟨v, v.permissions⟩ ∉ stored.permissions := by
  unfold leavesOut at h
  split at h
  · cases h
  · rename_i o
    split at h
    · cases h
    · rename_i types htypes
      split at h
      · rename_i stored hchecked hstored
        simp only [Bool.and_eq_true, Bool.not_eq_true', List.contains_eq_mem,
          decide_eq_false_iff_not] at h
        exact ⟨o, types, stored, rfl, htypes, hchecked, hstored, h.1, h.2⟩
      · cases h

/-- Asks for a resource, and for a text value by its type alone. -/
def textValues : Query where
  schema := .complex
  template :=
    [⟨.var ⟨"r"⟩, .ofIri (Complex.vocabulary ++ "isMainResource"), .lit (.boolean true)⟩,
     ⟨.var ⟨"v"⟩, .ofIri Rdf.type, .ofIri (Complex.vocabulary ++ "TextValue")⟩]
  body :=
    [.triple (.var ⟨"r"⟩) (.ofIri Rdf.type) (.ofIri (Complex.vocabulary ++ "Resource")),
     .triple (.var ⟨"v"⟩) (.ofIri Rdf.type) (.ofIri (Complex.vocabulary ++ "TextValue"))]

/-- **Not every value has its permissions bound.** A query that asks for a value by its type is
typed, checked and compiled, and the value comes without permissions. -/
theorem text_value_without_permissions :
    (∃ s, .statement s ∈ textValues.body ∧ s.Joins ⟨"v"⟩) ∧
    ∃ o types stored, Ontology.build {} = .ok o ∧ textValues.inferTypes o 32 = .ok types ∧
      textValues.check types = .ok () ∧
      textValues.toStore o types .graphDb defaultPageSize = .ok stored ∧
      types.isValueNode (.var ⟨"v"⟩) = true ∧
      ⟨⟨"v"⟩, Variable.permissions ⟨"v"⟩⟩ ∉ stored.permissions := by
  have hrun : textValues.leavesOut ⟨"v"⟩ (Ontology.build {}) = true := by decide +kernel
  exact ⟨⟨_, List.mem_cons_of_mem _ List.mem_cons_self, .inl rfl⟩, Query.exists_of_leavesOut hrun⟩

end OntoQuery
