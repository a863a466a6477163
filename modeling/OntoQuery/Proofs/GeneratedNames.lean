import OntoQuery.Proofs.FreshNames
import OntoQuery.Proofs.TemplateVariables

/-!
# Generated variables are fresh

Every variable of a query to the store is one that the caller wrote, or one that a stage generates
in one of five roles (`Role`, `Expander.Generates`). A generated name contains the separator, and a
checked query has no such name in it, so the two kinds never meet. The end of a generated name tells
its role (`Variable.role?`), so variables of different roles never meet either. Of the nodes that
are told apart by numbers, no two have the same number in one run. `generated_variables_fresh` puts
this together.
-/

namespace OntoQuery

/-- What a generated variable is for. -/
inductive Role where
  /-- The node of a value that is read by its content. -/
  | valueNode
  /-- The newer version of a value node. -/
  | newerVersion
  /-- The node of a link. -/
  | linkValue
  /-- The permissions of a resource, of a value node or of the node of a link. -/
  | permissions
  /-- The content of a value node that results are ordered by. -/
  | orderContent
  deriving DecidableEq, Repr

namespace Variable

/-- The role that the last character of a name and the one before it tell. -/
def roleOf (last before : Char) : Option Role :=
  if last = 's' then some .permissions
  else if last = 't' then some .orderContent
  else if last = 'r' then some .newerVersion
  else if last = 'e' ∧ before = 'u' then some .linkValue
  else if last = 'e' ∧ before = 'd' ∨ last.isDigit then some .valueNode
  else none

/-- The role that a generated name tells. -/
def role? (v : Variable) : Option Role :=
  match v.name.toList.reverse with
  | last :: before :: _ => roleOf last before
  | _ => none

/-- The last part of a name tells the role. -/
theorem role?_joined (parts : List String) (word : String) {role : Role}
    (h : role? ⟨word⟩ = some role) : (joined (parts ++ [word])).role? = some role := by
  obtain ⟨start, hname⟩ := name_joined parts word
  unfold role? at h ⊢
  rw [hname, List.reverse_append]
  split at h
  · rename_i hword
    rw [hword]
    exact h
  · cases h

theorem roleOf_digit {last : Char} (h : last.isDigit = true) (before : Char) :
    roleOf last before = some .valueNode := by
  have hother : ∀ c : Char, c.isDigit = false → last ≠ c := by
    rintro c hc rfl
    exact Bool.false_ne_true (hc.symm.trans h)
  simp [roleOf, h, hother 's' rfl, hother 't' rfl, hother 'r' rfl, hother 'e' rfl]

theorem role?_numbered (index : Nat) :
    role? ⟨"valueNode" ++ toString index⟩ = some .valueNode := by
  have hdigits : (toString index).toList = Nat.toDigits 10 index := Nat.toList_repr
  obtain ⟨last, more, hlast⟩ := List.exists_cons_of_ne_nil
    (List.reverse_ne_nil_iff.2 (Nat.toDigits_ne_nil (b := 10) (n := index)))
  have hmem : last ∈ (Nat.toDigits 10 index).reverse := hlast ▸ List.mem_cons_self
  have hdigit : last.isDigit = true :=
    Nat.isDigit_of_mem_toDigits (by decide) (by decide) (List.mem_reverse.1 hmem)
  obtain ⟨before, rest, hrest⟩ := List.exists_cons_of_ne_nil
    (List.append_ne_nil_of_right_ne_nil more (by decide : "valueNode".toList.reverse ≠ []))
  unfold role?
  rw [String.toList_append, List.reverse_append, hdigits, hlast, List.cons_append, hrest]
  exact roleOf_digit hdigit before

theorem role?_valueNode (subject predicate object : Entity) (index : Nat) :
    (valueNode subject predicate object index).role? = some .valueNode := by
  cases object with
  | var v => exact role?_joined [v.name] "valueNode" rfl
  | iri ref => exact role?_joined [_, _] _ (role?_numbered index)
  | lit l => exact role?_joined [_, _] _ (role?_numbered index)

theorem role?_newerVersion (node : Entity) : (newerVersion node).role? = some .newerVersion :=
  role?_joined [_] "newer" rfl

theorem role?_linkValue (subject : Entity) (property : Iri) (object : Entity) :
    (linkValue subject property object).role? = some .linkValue :=
  role?_joined [_, _, _] "LinkValue" rfl

theorem role?_permissions (v : Variable) : v.permissions.role? = some .permissions :=
  role?_joined [_] "permissions" rfl

theorem role?_orderContent (v : Variable) : v.orderContent.role? = some .orderContent :=
  role?_joined [_] "orderContent" rfl

theorem orderContent_reserved (v : Variable) : v.orderContent.isReserved = true :=
  joined_reserved _ _ _

end Variable

namespace Expander

/-- `x.Generates ss order role v`: for the statements `ss` and the order of results, some stage
makes the variable `v` in this role. -/
inductive Generates (x : Expander) (ss : List Statement) (order : List OrderCriterion) :
    Role → Variable → Prop where
  | valueNode {s : Statement} {n : Nat} {v : Variable} : s ∈ ss → x.passage s = .ok .value →
    x.objectIsNode s = false → (x.node s n).1 = .var v → Generates x ss order .valueNode v
  | newerVersion {s : Statement} {n : Nat} : s ∈ ss → x.passage s = .ok .value →
    Generates x ss order .newerVersion (.newerVersion (x.node s n).1)
  | linkValue {s : Statement} {property : Iri} : s ∈ ss → x.passage s = .ok (.link property) →
    Generates x ss order .linkValue (.linkValue s.subject property s.object)
  | permissions {s : Statement} {v : Variable} : s ∈ ss → s.Joins v →
    Generates x ss order .permissions v.permissions
  | nodePermissions {v : Variable} : Generates x ss order .valueNode v →
    Generates x ss order .permissions v.permissions
  | linkPermissions {v : Variable} : Generates x ss order .linkValue v →
    Generates x ss order .permissions v.permissions
  | orderContent {c : OrderCriterion} {kind : ValueKind} : c ∈ order →
    x.orderKind? c.key = some kind → Generates x ss order .orderContent c.key.orderContent

variable {x : Expander} {ss : List Statement} {order : List OrderCriterion}

/-- The node of an object that is read by its content is named after the statement. -/
theorem node_of_content {s : Statement} (h : x.objectIsNode s = false) (n : Nat) :
    ∃ index, (x.node s n).1 = .var (.valueNode s.subject s.predicate s.object index) := by
  unfold node
  rw [if_neg (by simp [h])]
  split
  · exact ⟨0, rfl⟩
  · exact ⟨n + 1, rfl⟩

/-- The name of a generated variable tells its role. -/
theorem Generates.role_eq {role : Role} {v : Variable} (h : x.Generates ss order role v) :
    v.role? = some role := by
  cases h with
  | valueNode _ _ hcontent hnode =>
    obtain ⟨index, hname⟩ := node_of_content hcontent _
    cases hnode.symm.trans hname
    exact Variable.role?_valueNode _ _ _ index
  | newerVersion _ _ => exact Variable.role?_newerVersion _
  | linkValue _ _ => exact Variable.role?_linkValue _ _ _
  | permissions _ _ => exact Variable.role?_permissions _
  | nodePermissions _ => exact Variable.role?_permissions _
  | linkPermissions _ => exact Variable.role?_permissions _
  | orderContent _ _ => exact Variable.role?_orderContent _

theorem Generates.reserved {role : Role} {v : Variable} (h : x.Generates ss order role v) :
    v.isReserved = true := by
  cases h with
  | valueNode _ _ hcontent hnode =>
    obtain ⟨index, hname⟩ := node_of_content hcontent _
    cases hnode.symm.trans hname
    exact Variable.valueNode_reserved _ _ _ index
  | newerVersion _ _ => exact Variable.newerVersion_reserved _
  | linkValue _ _ => exact Variable.linkValue_reserved _ _ _
  | permissions _ _ => exact Variable.permissions_reserved _
  | nodePermissions _ => exact Variable.permissions_reserved _
  | linkPermissions _ => exact Variable.permissions_reserved _
  | orderContent _ _ => exact Variable.orderContent_reserved _

theorem Generates.mono {ss' : List Statement} (hsub : ss ⊆ ss') {role : Role} {v : Variable}
    (h : x.Generates ss order role v) : x.Generates ss' order role v := by
  induction h with
  | valueNode hs hp hcontent hnode => exact .valueNode (hsub hs) hp hcontent hnode
  | newerVersion hs hp => exact .newerVersion (hsub hs) hp
  | linkValue hs hp => exact .linkValue (hsub hs) hp
  | permissions hs hv => exact .permissions (hsub hs) hv
  | nodePermissions _ ih => exact .nodePermissions ih
  | linkPermissions _ ih => exact .linkPermissions ih
  | orderContent hc hkind => exact .orderContent hc hkind

/-! ## Every variable is written or generated -/

/-- The variable stands in one of the statements, or is generated in some role. -/
def Accounts (x : Expander) (ss : List Statement) (order : List OrderCriterion)
    (v : Variable) : Prop :=
  (∃ s ∈ ss, s.mentions v = true) ∨ ∃ role, x.Generates ss order role v

theorem mentions_of_joins {s : Statement} {v : Variable} (h : s.Joins v) : s.mentions v = true :=
  Statement.mentions_eq_true.2 (h.imp_right .inr)

/-- A value node is the object of its statement, or generated. -/
theorem joins_or_generates_node {s : Statement} (hs : s ∈ ss) (hp : x.passage s = .ok .value)
    {n : Nat} {v : Variable} (hv : (x.node s n).1 = .var v) :
    s.Joins v ∨ x.Generates ss order .valueNode v := by
  cases hnode : x.objectIsNode s with
  | true => exact .inl (.inr (by simpa [node, hnode] using hv))
  | false => exact .inr (.valueNode hs hp hnode hv)

theorem accounts_of_joins {s : Statement} (hs : s ∈ ss) {v : Variable} (hv : s.Joins v) :
    x.Accounts ss order v :=
  .inl ⟨s, hs, mentions_of_joins hv⟩

theorem accounts_node {s : Statement} (hs : s ∈ ss) (hp : x.passage s = .ok .value) {n : Nat}
    {v : Variable} (hv : (x.node s n).1 = .var v) : x.Accounts ss order v := by
  rcases joins_or_generates_node hs hp hv with hjoins | hgenerates
  · exact accounts_of_joins hs hjoins
  · exact .inr ⟨_, hgenerates⟩

/-- Whatever a statement becomes mentions variables of the statement, or generated ones. -/
theorem accounts_of_writes {s t : Statement} (hs : s ∈ ss) {n : Nat} (h : x.Writes s n t)
    {v : Variable} (hv : t.mentions v = true) : x.Accounts ss order v := by
  obtain hown | ⟨hp, hnode | rfl⟩ | ⟨property, hp, rfl⟩ := h.mentions_cases hv
  · exact .inl ⟨s, hs, hown⟩
  · exact accounts_node hs hp hnode
  · exact .inr ⟨_, .newerVersion hs hp⟩
  · exact .inr ⟨_, .linkValue hs hp⟩

/-- The permissions of what a marker marks are generated. -/
theorem permissions_of_marker {s t : Statement} (hs : s ∈ ss) {n : Nat} (h : x.Writes s n t)
    (hmarker : t.isDeletionMarker = true) {v : Variable} (hv : t.subject = .var v) :
    x.Generates ss order .permissions v.permissions := by
  obtain ⟨_, rfl⟩ | ⟨hp, rfl⟩ | ⟨property, hp, rfl⟩ := h.marker_cases hmarker
  · exact .permissions hs (.inl hv)
  · rcases joins_or_generates_node hs hp hv with hjoins | hgenerates
    · exact .permissions hs hjoins
    · exact .nodePermissions hgenerates
  · cases hv
    exact .linkPermissions (.linkValue hs hp)

/-- What comes out of an expansion, with permissions, mentions variables of the statements or
generated ones. -/
theorem PiecesOf.accounts {outs : List Statement} (h : x.PiecesOf ss outs) {t t' : Statement}
    (ht : t ∈ outs) (ht' : t' ∈ t.withPermission) {v : Variable} (hv : t'.mentions v = true) :
    x.Accounts ss order v := by
  obtain ⟨s, hs, hsource⟩ := h.writes ht
  have own : t.mentions v = true → x.Accounts ss order v := by
    intro hv
    rcases hsource with ⟨n, hwrites⟩ | ⟨w, hjoins, _, rfl⟩
    · exact accounts_of_writes hs hwrites hv
    · rw [Statement.mentions_eq_true] at hv
      rcases hv with hv | hv | hv
      · cases hv
        exact accounts_of_joins hs hjoins
      · cases hv
      · cases hv
  rcases Statement.mem_withPermission ht' with rfl | ⟨w, hmarker, hsubject, rfl⟩
  · exact own hv
  · rw [Statement.mentions_eq_true] at hv
    rcases hv with hv | hv | hv
    · cases hv
      exact own (Statement.mentions_eq_true.2 (.inl hsubject))
    · cases hv
    · cases hv
      rcases hsource with ⟨n, hwrites⟩ | ⟨u, hjoins, _, rfl⟩
      · exact .inr ⟨_, permissions_of_marker hs hwrites hmarker hsubject⟩
      · cases hsubject
        exact .inr ⟨_, .permissions hs hjoins⟩

/-! ## Numbers -/

/-- A value statement becomes, among others, the statement that leads to its node. -/
theorem toNode_mem {s : Statement} (hp : x.passage s = .ok .value) {n k : Nat} {own : Group}
    (h : x.expandStatement s n = .ok (own, k)) :
    ⟨s.subject, s.predicate, (x.node s n).1⟩ ∈ own.statements := by
  obtain ⟨hd, _⟩ | ⟨_, rest, rfl, _⟩ | ⟨_, _, hl, _⟩ := x.expandStatement_ok h
  · cases hp.symm.trans hd
  · exact Group.mem_statements List.mem_cons_self
  · cases hp.symm.trans hl

/-- The numbered statement at a place is expanded with the node of its place. -/
theorem numbered_node_mem {g out : Group} (h : x.expand g = .ok out) {i : Nat} {s : Statement}
    (hs : (g.statements.filter x.isNumbered)[i]? = some s) :
    ⟨s.subject, s.predicate, (x.node s i).1⟩ ∈ out.statements := by
  obtain ⟨⟨_, k⟩, hrun, rfl⟩ := map_eq_ok.1 h
  obtain ⟨owns, hturn, hsubset⟩ := writesInTurn_of_expandGroup hrun
  obtain ⟨own, hmem, k', hown⟩ := hturn.get hs
  rw [Nat.zero_add] at hown
  have hnumbered : x.isNumbered s = true := (List.mem_filter.1 (List.mem_of_getElem? hs)).2
  exact hsubset own hmem (toNode_mem (isNumbered_iff.1 hnumbered).1 hown)

/-- The node of a numbered statement has its number at the end. -/
theorem node_eq_numbered {s : Statement} (hs : x.isNumbered s = true) (n : Nat) :
    (x.node s n).1 = .var (.joined
      [s.subject.baseName, s.predicate.baseName, "valueNode" ++ toString (n + 1)]) := by
  rw [node_of_isNumbered hs n]
  have hobject := (isNumbered_iff.1 hs).2.2
  cases h : s.object with
  | var v =>
    rw [h] at hobject
    cases hobject
  | iri ref => rfl
  | lit l => rfl

theorem numbered_node_inj {s s' : Statement} (hs : x.isNumbered s = true)
    (hs' : x.isNumbered s' = true) {i j : Nat} (h : (x.node s i).1 = (x.node s' j).1) : i = j := by
  rw [node_eq_numbered hs, node_eq_numbered hs'] at h
  exact Nat.succ.inj (Variable.numbered_inj (Entity.var.inj h))

theorem numbered_node_ne {s : Statement} (hs : x.isNumbered s = true) (n : Nat) (u : Variable) :
    (x.node s n).1 ≠ .var (.joined [u.name, "valueNode"]) := by
  rw [node_eq_numbered hs]
  intro h
  exact Variable.numbered_ne_of_ending (Variable.ending_joined [u.name] rfl) (by decide)
    (Entity.var.inj h)

end Expander

/-- The entities of a statement are entities of the group that has it. -/
theorem Group.typeables_of_mem {g : Group} {s : Statement} (hs : s ∈ g.statements) :
    s.typeables ⊆ g.typeables := by
  intro e he
  induction g using Group.by_patterns with
  | nil => cases hs
  | statement t ps ih =>
    rw [statements_statement, List.mem_cons] at hs
    rw [typeables_statement, List.mem_append]
    rcases hs with rfl | hs
    · exact .inl he
    · exact .inr (ih hs)
  | optional g ps ihg ih =>
    rw [statements_optional, List.mem_append] at hs
    rw [typeables_optional, List.mem_append]
    exact hs.imp ihg ih
  | union gs ps ihg ih =>
    rw [statements_union, List.mem_append, List.mem_flatMap] at hs
    rw [typeables_union, List.mem_append, List.mem_flatMap]
    exact hs.imp (fun ⟨g, hg, hs⟩ => ⟨g, hg, ihg g hg hs⟩) ih
  | filter e ps ih =>
    rw [statements_filter] at hs
    rw [typeables_filter, List.mem_append]
    exact .inr (ih hs)
  | minus g ps ihg ih =>
    rw [statements_minus, List.mem_append] at hs
    rw [typeables_minus, List.mem_append]
    exact hs.imp ihg ih

namespace Query

/-- The variable stands in the body, in a statement or a filter at any depth, or in the template. -/
def Writes (q : Query) (v : Variable) : Prop :=
  v ∈ q.body.vars ∨ ∃ s ∈ q.template, s.mentions v = true

/-- The statements of both parts of a query, as they are expanded. -/
def flatStatements (q : Query) : List Statement :=
  q.body.flatten.statements ++ q.template.map Statement.flatten

/-- Some stage makes the variable in this role for the body, the template or the order. -/
def Generates (q : Query) (x : Expander) (role : Role) (v : Variable) : Prop :=
  x.Generates q.flatStatements q.orderBy role v

theorem Writes.not_reserved {q : Query} {types : Types} (h : q.check types = .ok ()) {v : Variable}
    (hv : q.Writes v) : v.isReserved = false := by
  have named : v.check = .ok () → v.isReserved = false := by
    intro hcheck
    unfold Variable.check at hcheck
    split at hcheck
    · cases hcheck
    · rename_i hreserved
      simpa using hreserved
  rcases hv with hv | ⟨s, hs, hv⟩
  · obtain ⟨e, he, hvar⟩ := List.mem_filterMap.1 hv
    cases Entity.var?_eq_some.1 hvar
    obtain ⟨part, hpart, hentity⟩ := List.mem_filterMap.1 he
    have hpart' : part = .entity (.var v) := by
      cases part <;> cases hentity
      rfl
    subst hpart'
    obtain ⟨_, hparts, _⟩ := bind_eq_ok.1 h
    exact named (of_forM_ok hparts _ hpart)
  · obtain ⟨_, hnames, _⟩ := bind_eq_ok.1 (template_of_check h hs)
    have hmem : .var v ∈ s.entities := by
      rcases Statement.mentions_eq_true.1 hv with hv | hv | hv
      · simp [Statement.entities, hv]
      · simp [Statement.entities, hv]
      · simp [Statement.entities, hv]
    exact named (of_forM_ok hnames _ hmem)

theorem mentions_flatten {s : Statement} {v : Variable} :
    s.flatten.mentions v = true ↔ s.mentions v = true := by
  rw [Statement.mentions_eq_true, Statement.mentions_eq_true]
  exact or_congr Entity.flatten_eq_var (or_congr Entity.flatten_eq_var Entity.flatten_eq_var)

/-- The variables of the statements as they are expanded are variables of the query. -/
theorem writes_of_mentions {q : Query} {s : Statement} (hs : s ∈ q.flatStatements) {v : Variable}
    (hv : s.mentions v = true) : q.Writes v := by
  rcases List.mem_append.1 hs with hs | hs
  · rw [Group.statements_flatten] at hs
    obtain ⟨t, ht, rfl⟩ := List.mem_map.1 hs
    have hmentions := Statement.mentions_iff.1 (mentions_flatten.1 hv)
    exact .inl (Group.mem_vars.2 (Group.typeables_of_mem ht hmentions))
  · obtain ⟨t, ht, rfl⟩ := List.mem_map.1 hs
    exact .inr ⟨t, ht, mentions_flatten.1 hv⟩

theorem accounts_of_subset {q : Query} {x : Expander} {ss : List Statement}
    (hsub : ss ⊆ q.flatStatements) {v : Variable} (h : x.Accounts ss q.orderBy v) :
    q.Writes v ∨ ∃ role, q.Generates x role v := by
  rcases h with ⟨s, hs, hv⟩ | ⟨role, hgenerates⟩
  · exact .inl (writes_of_mentions (hsub hs) hv)
  · exact .inr ⟨role, hgenerates.mono hsub⟩

/-- The variables of a body for the store. -/
theorem accounts_body {q : Query} {o : Ontology} {types : Types} {d : Dialect} {size : UInt32}
    {stored : StoreQuery} (h : q.toStore o types d size = .ok stored) {t : Statement}
    (ht : t ∈ stored.content.body.statements) {v : Variable} (hv : t.mentions v = true) :
    (q.Writes v ∨ ∃ role, q.Generates ⟨o, types⟩ role v) ∨ ∃ c ∈ q.orderBy, v = c.key := by
  obtain ⟨_, ⟨expanded, order, hexpanded, horder⟩, _⟩ := Query.toStore_stages h
  obtain ⟨⟨_, k⟩, hrun, rfl⟩ := map_eq_ok.1 hexpanded
  have hpieces := Expander.statements_of_becomes ⟨_, _, _, hrun⟩
  rcases (Expander.orderByContent_adds horder).adds t ht with ht | ⟨c, hc, kind, hkind, rfl⟩
  · rw [Group.finished, Group.statements_compensate] at ht
    obtain ⟨t', ht', hvariant⟩ := List.mem_flatMap.1 ht
    rw [Group.statements_withPermissions] at ht'
    obtain ⟨r, hr, ht'⟩ := List.mem_flatMap.1 ht'
    have hv' := Statement.mentions_of_mem_variants hvariant hv
    exact .inl (accounts_of_subset (List.subset_append_left _ _) (hpieces.accounts hr ht' hv'))
  · rw [Statement.mentions_eq_true] at hv
    rcases hv with hv | hv | hv
    · exact .inr ⟨c, hc, (Entity.var.inj hv).symm⟩
    · cases hv
    · cases hv
      exact .inl (.inr ⟨_, .orderContent hc hkind⟩)

/-- The variables of a template for the store. -/
theorem accounts_template {q : Query} {o : Ontology} {types : Types} {d : Dialect} {size : UInt32}
    {stored : StoreQuery} (h : q.toStore o types d size = .ok stored) {t : Statement}
    (ht : t ∈ stored.content.template) {v : Variable} (hv : t.mentions v = true) :
    q.Writes v ∨ ∃ role, q.Generates ⟨o, types⟩ role v := by
  obtain ⟨⟨out, k, hout, htemplate⟩, _⟩ := Query.template_of_toStore h
  obtain ⟨r, hr, ht⟩ := htemplate t ht
  have hpieces := Expander.statements_of_becomes ⟨_, _, _, hout⟩
  rw [Group.statements_map] at hpieces
  exact accounts_of_subset (List.subset_append_right _ _)
    (hpieces.accounts (Group.mem_statements hr) ht hv)

end Query

/-- **Generated variables are fresh.** Take a query that is checked and comes to the store, with
whatever types.

* Each variable in a statement of the body or the template for the store is written in the query, or
  is generated in a role.
* A generated variable is not written in the body, in statements or filters at any depth, nor in the
  template.
* A variable is generated in one role only.
* In each run of expansion, statements whose value nodes are numbered, in whatever groups they lie,
  get different nodes, which are the nodes of no variable either. -/
theorem generated_variables_fresh {q : Query} {o : Ontology} {checked types : Types} {d : Dialect}
    {size : UInt32} {stored : StoreQuery} (hchecked : q.check checked = .ok ())
    (hstored : q.toStore o types d size = .ok stored) :
    let x : Expander := ⟨o, types⟩
    (∀ t ∈ stored.content.body.statements ++ stored.content.template, ∀ v, t.mentions v = true →
      q.Writes v ∨ (∃ role, q.Generates x role v) ∨ ∃ c ∈ q.orderBy, v = c.key) ∧
    (∀ role v, q.Generates x role v → ¬ q.Writes v) ∧
    (∀ role role' v, q.Generates x role v → q.Generates x role' v → role = role') ∧
    ∀ g out, x.expand g = .ok out → ∀ i s, (g.statements.filter x.isNumbered)[i]? = some s →
      ⟨s.subject, s.predicate, (x.node s i).1⟩ ∈ out.statements ∧
      (∀ j s', (g.statements.filter x.isNumbered)[j]? = some s' → i ≠ j →
        (x.node s i).1 ≠ (x.node s' j).1) ∧
      ∀ subject predicate u n, (x.node s i).1 ≠ .var (.valueNode subject predicate (.var u) n) := by
  intro x
  refine ⟨?_, ?_, ?_, ?_⟩
  · intro t ht v hv
    rcases List.mem_append.1 ht with ht | ht
    · rcases Query.accounts_body hstored ht hv with (hwritten | hgenerated) | hkey
      · exact .inl hwritten
      · exact .inr (.inl hgenerated)
      · exact .inr (.inr hkey)
    · exact (Query.accounts_template hstored ht hv).imp_right .inl
  · intro role v hgenerated hwritten
    exact Bool.false_ne_true ((hwritten.not_reserved hchecked).symm.trans hgenerated.reserved)
  · intro role role' v h h'
    exact Option.some.inj (h.role_eq.symm.trans h'.role_eq)
  · intro g out hout i s hs
    have numbered : ∀ {j s'}, (g.statements.filter x.isNumbered)[j]? = some s' →
        x.isNumbered s' = true := fun hs' => (List.mem_filter.1 (List.mem_of_getElem? hs')).2
    refine ⟨Expander.numbered_node_mem hout hs, ?_, ?_⟩
    · intro j s' hs' hij heq
      exact hij (Expander.numbered_node_inj (numbered hs) (numbered hs') heq)
    · intro subject predicate u n
      exact Expander.numbered_node_ne (numbered hs) i u

/-- A page in the body and a name in an optional group inside it have nodes of different numbers,
and the query writes neither. -/
theorem generated_variables_fresh_nested :
    let q : Query :=
      { pageQuery [] with body := [.statement hasPage, .optional [.statement namedVilla]] }
    ∃ o types stored, q.check types = .ok () ∧
      q.toStore o types .fuseki defaultPageSize = .ok stored ∧
      (Expander.node ⟨o, types⟩ hasPage.flatten 0).1 = .var ⟨"r__hasPage__valueNode1"⟩ ∧
      ¬ q.Writes ⟨"r__hasPage__valueNode1"⟩ ∧
      (Expander.node ⟨o, types⟩ hasPage.flatten 0).1 ≠
        (Expander.node ⟨o, types⟩ namedVilla.flatten 1).1 := by
  intro q
  obtain ⟨o, types, stored, _, _, hchecked, hstored, hnumbered, hnode⟩ :=
    q.exists_stored .fuseki namedPages (fun o types _ =>
      q.body.flatten.statements.filter (Expander.isNumbered ⟨o, types⟩) =
        [hasPage.flatten, namedVilla.flatten] ∧
      (Expander.node ⟨o, types⟩ hasPage.flatten 0).1 = .var ⟨"r__hasPage__valueNode1"⟩)
      (by decide +kernel)
  obtain ⟨_, hfresh, _, hplaces⟩ := generated_variables_fresh hchecked hstored
  obtain ⟨_, ⟨expanded, _, hexpanded, _⟩, _⟩ := Query.toStore_stages hstored
  have hfirst : (q.body.flatten.statements.filter (Expander.isNumbered ⟨o, types⟩))[0]? =
      some hasPage.flatten := by rw [hnumbered]; rfl
  have hsecond : (q.body.flatten.statements.filter (Expander.isNumbered ⟨o, types⟩))[1]? =
      some namedVilla.flatten := by rw [hnumbered]; rfl
  obtain ⟨hmem, hpage⟩ := List.mem_filter.1 (List.mem_of_getElem? hfirst)
  obtain ⟨hvalue, hcontent, _⟩ := Expander.isNumbered_iff.1 hpage
  refine ⟨o, types, stored, hchecked, hstored, hnode, ?_, ?_⟩
  · exact hfresh .valueNode _ (.valueNode (List.mem_append_left _ hmem) hvalue hcontent hnode)
  · exact (hplaces _ _ hexpanded 0 _ hfirst).2.1 1 _ hsecond (by decide)

end OntoQuery
