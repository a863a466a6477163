import OntoQuery.Proofs.MainResource

/-!
# The variables of the template

A template can only construct what its body finds, so the names that are generated for a template
have to be those that are generated for the body. The two are expanded apart from each other, each
with marks and numbers of its own. Most names depend on nothing but the statement, and then a
statement that stands in both is written alike in both. The exception are value nodes of objects
that are no variables: these are told apart by their number, that is by their place among the
numbered statements of the template and of the body.

`template_variables_bound` says that nothing goes wrong but with a node that has one place in the
template and another in the body, and `numbered_page_unbound` is a query that has such a node.
-/

namespace OntoQuery

namespace Expander
variable {x : Expander}

/-! ## Numbered nodes -/

/-- Whether the value node of the statement is told apart by a number. -/
def isNumbered (x : Expander) (s : Statement) : Bool :=
  match x.passage s with
  | .ok .value => !x.objectIsNode s && !s.object.isVariable
  | _ => false

theorem isNumbered_iff {s : Statement} :
    x.isNumbered s = true ↔
      x.passage s = .ok .value ∧ x.objectIsNode s = false ∧ s.object.isVariable = false := by
  unfold isNumbered
  split
  · rename_i hp
    simp [hp]
  · rename_i hp
    simp only [Bool.false_eq_true, false_iff, not_and]
    intro hvalue
    exact absurd hvalue hp

theorem node_of_isNumbered {s : Statement} (h : x.isNumbered s = true) (n : Nat) :
    x.node s n = (.var (.valueNode s.subject s.predicate s.object (n + 1)), n + 1) := by
  obtain ⟨_, hnode, hobject⟩ := isNumbered_iff.1 h
  simp [node, hnode, hobject]

/-- The node of any other value statement does not depend on the number, nor add to it. -/
theorem node_of_not_isNumbered {s : Statement} (hp : x.passage s = .ok .value)
    (h : x.isNumbered s = false) (n : Nat) : x.node s n = ((x.node s 0).1, n) := by
  by_cases hnode : x.objectIsNode s = true
  · simp [node, hnode]
  · have hobject : s.object.isVariable = true := by
      by_contra hobject
      rw [isNumbered_iff.2 ⟨hp, by simpa using hnode, by simpa using hobject⟩] at h
      cases h
    simp [node, hnode, hobject]

theorem numbered_node {s : Statement} (hp : x.passage s = .ok .value) (n : Nat) :
    (x.node s n).2 = if x.isNumbered s then n + 1 else n := by
  cases hs : x.isNumbered s with
  | true => rw [node_of_isNumbered hs, if_pos rfl]
  | false => rw [node_of_not_isNumbered hp hs, if_neg Bool.false_ne_true]

/-- A statement adds one to the number if its node is numbered, and nothing else does. -/
theorem expandStatement_number {s : Statement} {n k : Nat} {own : Group}
    (h : x.expandStatement s n = .ok (own, k)) : k = if x.isNumbered s then n + 1 else n := by
  cases x.expandStatement_eq_ok.1 h with
  | direct hp => simp [isNumbered, hp]
  | node hp => exact numbered_node hp n
  | content hp => exact numbered_node hp n
  | link hp => simp [isNumbered, hp]

/-- A statement whose node is not numbered becomes the same at any place. -/
theorem expandStatement_anywhere {s : Statement} (hs : x.isNumbered s = false) {n k : Nat}
    {own : Group} (h : x.expandStatement s n = .ok (own, k)) (m : Nat) :
    x.expandStatement s m = .ok (own, m) := by
  rw [expandStatement_eq_ok] at h ⊢
  cases h with
  | direct hp => exact .direct hp
  | node hp hnode =>
    have here := Expands.node (n := m) hp hnode
    rw [node_of_not_isNumbered hp hs] at here ⊢
    exact here
  | content hp hnode hkind hliteral =>
    have here := Expands.content (n := m) hp hnode hkind hliteral
    rw [node_of_not_isNumbered hp hs] at here ⊢
    exact here
  | link hp hproperty hliteral => exact .link hp hproperty hliteral

/-! ## Statements in turn -/

/-- The statements are expanded one after the other, with `n` nodes numbered before the first and
`k` after the last. -/
inductive InTurn (x : Expander) : List Statement → Nat → List Group → Nat → Prop where
  | nil (n : Nat) : InTurn x [] n [] n
  | cons {s : Statement} {ss : List Statement} {own : Group} {owns : List Group} {n n' k : Nat} :
    x.expandStatement s n = .ok (own, n') → InTurn x ss n' owns k →
      InTurn x (s :: ss) n (own :: owns) k

theorem InTurn.append {ss ss' : List Statement} {owns owns' : List Group} {n n' k : Nat}
    (h : x.InTurn ss n owns n') (h' : x.InTurn ss' n' owns' k) :
    x.InTurn (ss ++ ss') n (owns ++ owns') k := by
  induction h with
  | nil n => exact h'
  | cons hown _ ih => exact .cons hown (ih h')

/-- A numbered statement has its place among the numbered ones for its number. -/
theorem InTurn.get {ss : List Statement} {owns : List Group} {n k : Nat} (h : x.InTurn ss n owns k)
    {i : Nat} {s : Statement} (hs : (ss.filter x.isNumbered)[i]? = some s) :
    ∃ own ∈ owns, ∃ k', x.expandStatement s (n + i) = .ok (own, k') := by
  induction h generalizing i with
  | nil n => cases hs
  | @cons first ss own owns n n' k hown _ ih =>
    have hn := expandStatement_number hown
    cases hfirst : x.isNumbered first with
    | false =>
      rw [List.filter_cons_of_neg (by simp [hfirst])] at hs
      rw [hfirst, if_neg Bool.false_ne_true] at hn
      subst hn
      obtain ⟨other, hother, hrun⟩ := ih hs
      exact ⟨other, List.mem_cons_of_mem _ hother, hrun⟩
    | true =>
      rw [List.filter_cons_of_pos hfirst] at hs
      rw [hfirst, if_pos rfl] at hn
      subst hn
      cases i with
      | zero =>
        cases hs
        exact ⟨own, List.mem_cons_self, _, hown⟩
      | succ i =>
        obtain ⟨other, hother, hrun⟩ := ih hs
        rw [Nat.add_assoc, Nat.add_comm 1 i] at hrun
        exact ⟨other, List.mem_cons_of_mem _ hother, hrun⟩

/-- Among the second statements are those that the first become in turn. -/
def WritesInTurn (x : Expander) (ss : List Statement) (n : Nat) (outs : List Statement) (k : Nat) :
    Prop :=
  ∃ owns, x.InTurn ss n owns k ∧ ∀ own ∈ owns, own.statements ⊆ outs

theorem WritesInTurn.append {ss ss' outs outs' : List Statement} {n n' k : Nat}
    (h : x.WritesInTurn ss n outs n') (h' : x.WritesInTurn ss' n' outs' k) :
    x.WritesInTurn (ss ++ ss') n (outs ++ outs') k := by
  obtain ⟨owns, hturn, hsubset⟩ := h
  obtain ⟨owns', hturn', hsubset'⟩ := h'
  refine ⟨owns ++ owns', hturn.append hturn', ?_⟩
  intro own hown
  rcases List.mem_append.1 hown with hown | hown
  · exact List.subset_append_of_subset_left _ (hsubset own hown)
  · exact List.subset_append_of_subset_right _ (hsubset' own hown)

theorem writesInTurn_of_expandGroups {gs : List Group}
    (ih : ∀ g ∈ gs, ∀ {marked n k out}, x.expandGroup g marked n = .ok (out, k) →
      x.WritesInTurn g.statements n out.statements k)
    {marked : List Variable} {n k : Nat} {outs : List Group}
    (h : x.expandGroups gs marked n = .ok (outs, k)) :
    x.WritesInTurn (gs.flatMap Group.statements) n (outs.flatMap Group.statements) k := by
  induction gs generalizing n outs with
  | nil =>
    rw [expandGroups] at h
    cases h
    exact ⟨[], .nil _, by simp⟩
  | cons g gs ihs =>
    obtain ⟨inner, n', inners, hinner, hinners, rfl⟩ := expandGroups_cons_ok.1 h
    exact (ih g List.mem_cons_self hinner).append
      (ihs (fun g hg => ih g (List.mem_cons_of_mem _ hg)) hinners)

/-- **A body is numbered throughout**, statement by statement at any depth. -/
theorem writesInTurn_of_expandGroup {g : Group} {marked : List Variable} {n k : Nat} {out : Group}
    (h : x.expandGroup g marked n = .ok (out, k)) :
    x.WritesInTurn g.statements n out.statements k := by
  induction g using Group.by_patterns generalizing marked n k out with
  | nil =>
    rw [expandGroup] at h
    cases h
    exact ⟨[], .nil _, by simp⟩
  | statement s ps ih =>
    obtain ⟨_, n', rest, hfirst, hrest, rfl⟩ := expandGroup_cons_ok.1 h
    obtain ⟨_, own, hown, rfl⟩ := x.expandPattern_ok hfirst
    have hs :
        x.WritesInTurn [s] n (Group.statements (own ++ markers (x.unmarked marked s))) n' := by
      refine ⟨[own], .cons hown (.nil n'), ?_⟩
      rintro _ hmem
      rw [List.mem_singleton.1 hmem, Group.statements_append]
      exact List.subset_append_left _ _
    rw [Group.statements_append, Group.statements_statement]
    exact hs.append (ih hrest)
  | optional g ps ihg ih =>
    obtain ⟨_, n', rest, hfirst, hrest, rfl⟩ := expandGroup_cons_ok.1 h
    obtain ⟨_, inner, hinner, rfl⟩ := x.expandPattern_ok hfirst
    rw [List.singleton_append, Group.statements_optional, Group.statements_optional]
    exact (ihg hinner).append (ih hrest)
  | union gs ps ihg ih =>
    obtain ⟨_, n', rest, hfirst, hrest, rfl⟩ := expandGroup_cons_ok.1 h
    obtain ⟨_, inners, hinners, rfl⟩ := x.expandPattern_ok hfirst
    rw [List.singleton_append, Group.statements_union, Group.statements_union]
    exact (writesInTurn_of_expandGroups (fun g hg => ihg g hg) hinners).append (ih hrest)
  | filter e ps ih =>
    obtain ⟨_, n', rest, hfirst, hrest, rfl⟩ := expandGroup_cons_ok.1 h
    obtain ⟨_, rfl, rfl⟩ := x.expandPattern_ok hfirst
    rw [List.singleton_append, Group.statements_filter, Group.statements_filter]
    exact ih hrest
  | minus g ps ihg ih =>
    obtain ⟨_, n', rest, hfirst, hrest, rfl⟩ := expandGroup_cons_ok.1 h
    obtain ⟨_, inner, hinner, rfl⟩ := x.expandPattern_ok hfirst
    rw [List.singleton_append, Group.statements_minus, Group.statements_minus]
    exact (ihg hinner).append (ih hrest)

/-- What a template has at its own level comes from one of its statements, at its place if it is
numbered, or marks a resource. -/
theorem exists_source {ss : List Statement} {marked : List Variable} {n k : Nat} {out : Group}
    (h : x.expandGroup (ss.map .statement) marked n = .ok (out, k)) {t : Statement}
    (ht : .statement t ∈ out) :
    (∃ s ∈ ss, ∃ i own k', x.expandStatement s (n + i) = .ok (own, k') ∧ .statement t ∈ own ∧
      (x.isNumbered s = true → (ss.filter x.isNumbered)[i]? = some s)) ∨
    ∃ v, x.types.isResource (.var v) = true ∧ t = .deletionMarker (.var v) := by
  induction ss generalizing marked n out with
  | nil =>
    rw [List.map_nil, expandGroup] at h
    cases h
    cases ht
  | cons first ss ih =>
    obtain ⟨_, n', rest, hfirst, hrest, rfl⟩ := expandGroup_cons_ok.1 h
    obtain ⟨_, own, hown, rfl⟩ := x.expandPattern_ok hfirst
    rcases List.mem_append.1 ht with ht | ht
    · rcases List.mem_append.1 ht with ht | ht
      · refine .inl ⟨first, List.mem_cons_self, 0, own, n', hown, ht, ?_⟩
        intro hnumbered
        rw [List.filter_cons_of_pos hnumbered]
        rfl
      · obtain ⟨v, hv, heq⟩ := List.mem_map.1 ht
        exact .inr ⟨v, (mem_unmarked.1 hv).2.1, (Pattern.statement.inj heq).symm⟩
    · rcases ih hrest ht with ⟨s, hs, i, made, k', hmade, ht, hplace⟩ | hmarker
      · have hn := expandStatement_number hown
        cases hnumbered : x.isNumbered first with
        | false =>
          rw [hnumbered, if_neg Bool.false_ne_true] at hn
          rw [hn] at hmade
          refine .inl ⟨s, List.mem_cons_of_mem _ hs, i, made, k', hmade, ht, ?_⟩
          rwa [List.filter_cons_of_neg (by simp [hnumbered])]
        | true =>
          rw [hnumbered, if_pos rfl] at hn
          rw [hn, Nat.add_assoc, Nat.add_comm 1 i] at hmade
          refine .inl ⟨s, List.mem_cons_of_mem _ hs, i + 1, made, k', hmade, ht, ?_⟩
          rwa [List.filter_cons_of_pos hnumbered]
      · exact .inr hmarker

/-! ## What a statement mentions once it is expanded -/

/-- The variable is for the node of the statement when `n` nodes are numbered before it, or for the
permissions of that node. -/
def NamesNode (s : Statement) (n : Nat) (v : Variable) : Prop :=
  let node := Variable.valueNode s.subject s.predicate s.object (n + 1)
  v = node ∨ v = node.permissions

/-- Whatever a statement becomes, one statement has its subject and its predicate. -/
theorem exists_same_start {s : Statement} {n k : Nat} {own : Group}
    (h : x.expandStatement s n = .ok (own, k)) :
    ∃ t ∈ own.statements, t.subject = s.subject ∧ t.predicate = s.predicate := by
  obtain ⟨_, rfl⟩ | ⟨_, rest, rfl, _⟩ | ⟨_, _, _, _, rfl⟩ := x.expandStatement_ok h
  · exact ⟨s, List.mem_cons_self, rfl, rfl⟩
  · exact ⟨_, Group.mem_statements List.mem_cons_self, rfl, rfl⟩
  · exact ⟨s, Group.mem_statements List.mem_cons_self, rfl, rfl⟩

/-- The statements, at the level of the group itself, that a numbered statement becomes. -/
theorem cases_of_isNumbered {s : Statement} (hs : x.isNumbered s = true) {n k : Nat} {own : Group}
    (h : x.expandStatement s n = .ok (own, k)) {t : Statement} (ht : .statement t ∈ own) :
    let node := .var (.valueNode s.subject s.predicate s.object (n + 1))
    t = ⟨s.subject, s.predicate, node⟩ ∨ t = .deletionMarker node ∨
      ∃ kind : ValueKind, t = ⟨node, .ofIri kind.contentPredicate, s.object⟩ := by
  intro node
  have hnode : (x.node s n).1 = node := congrArg Prod.fst (node_of_isNumbered hs n)
  have hp := (isNumbered_iff.1 hs).1
  obtain ⟨hd, _⟩ | ⟨_, rest, rfl, hrest⟩ | ⟨_, _, hl, _⟩ := x.expandStatement_ok h
  · cases hp.symm.trans hd
  · rw [hnode] at ht hrest
    rcases List.mem_append.1 ht with ht | ht
    · simp only [current, Pattern.triple, List.mem_cons, Pattern.statement.injEq, reduceCtorEq,
        List.not_mem_nil, or_false] at ht
      exact ht.imp_right .inl
    · obtain rfl | ⟨kind, rfl⟩ := hrest
      · cases ht
      · exact .inr (.inr ⟨kind, Pattern.statement.inj (List.mem_singleton.1 ht)⟩)
  · cases hp.symm.trans hl

/-- A numbered statement comes to mention, beside its subject and predicate, its node and the node's
permissions. -/
theorem mentions_of_isNumbered {s : Statement} (hs : x.isNumbered s = true) {n k : Nat}
    {own : Group} (h : x.expandStatement s n = .ok (own, k)) {t t' : Statement}
    (ht : .statement t ∈ own) (ht' : t' ∈ t.withPermission) {v : Variable}
    (hv : t'.mentions v = true) :
    (s.subject = .var v ∨ s.predicate = .var v) ∨ NamesNode s n v := by
  have hobject : s.object ≠ .var v := by
    intro hobject
    have hvariable := (isNumbered_iff.1 hs).2.2
    rw [hobject] at hvariable
    cases hvariable
  rw [Statement.mentions_eq_true] at hv
  rcases Statement.mem_withPermission ht' with rfl | ⟨w, hmarker, hsubject, rfl⟩
  · obtain rfl | rfl | ⟨kind, rfl⟩ := cases_of_isNumbered hs h ht
    · rcases hv with hv | hv | hv
      · exact .inl (.inl hv)
      · exact .inl (.inr hv)
      · exact .inr (.inl (Entity.var.inj hv).symm)
    · rcases hv with hv | hv | hv
      · exact .inr (.inl (Entity.var.inj hv).symm)
      · cases hv
      · cases hv
    · rcases hv with hv | hv | hv
      · exact .inr (.inl (Entity.var.inj hv).symm)
      · cases hv
      · exact absurd hv hobject
  · -- The statement that leads to the node marks nothing, since its object is the node.
    have hw : w = .valueNode s.subject s.predicate s.object (n + 1) := by
      obtain rfl | rfl | ⟨kind, rfl⟩ := cases_of_isNumbered hs h ht
      · cases (Statement.isDeletionMarker_iff.1 hmarker).2.2
      · exact (Entity.var.inj hsubject).symm
      · exact (Entity.var.inj hsubject).symm
    rcases hv with hv | hv | hv
    · exact .inr (.inl ((Entity.var.inj hv).symm.trans hw))
    · cases hv
    · exact .inr (.inr ((Entity.var.inj hv).symm.trans (congrArg _ hw)))

/-! ## The template and the body -/

section
variable {g out : Group} {k : Nat} (h : x.expandGroup g [] 0 = .ok (out, k))
include h

/-- The subject and the predicate of a statement of a body are mentioned still. -/
theorem mentions_of_start {s : Statement} (hs : s ∈ g.statements) {v : Variable}
    (hv : s.subject = .var v ∨ s.predicate = .var v) : out.withPermissions.mentions v = true := by
  obtain ⟨n, k', own, hown, hsubset⟩ := (statements_of_becomes ⟨_, _, _, h⟩).exists_own hs
  obtain ⟨t, ht, hsubject, hpredicate⟩ := exists_same_start hown
  refine Group.mentions_of_mem (Group.mem_withPermissions (hsubset ht) List.mem_cons_self) ?_
  rw [Statement.mentions_eq_true, hsubject, hpredicate]
  exact hv.imp_right .inl

/-- A statement of a body becomes the same elsewhere, if it has the same place there in case it is
numbered. -/
theorem subset_of_same_place {s : Statement} (hs : s ∈ g.statements) {i k' : Nat} {own : Group}
    (hown : x.expandStatement s i = .ok (own, k'))
    (hplace : x.isNumbered s = true → (g.statements.filter x.isNumbered)[i]? = some s) :
    own.statements ⊆ out.statements := by
  cases hnumbered : x.isNumbered s with
  | true =>
    obtain ⟨owns, hturn, hsubset⟩ := writesInTurn_of_expandGroup h
    obtain ⟨other, hother, _, hrun⟩ := hturn.get (hplace hnumbered)
    rw [Nat.zero_add] at hrun
    cases hown.symm.trans hrun
    exact hsubset _ hother
  | false =>
    obtain ⟨n, k', own', hown', hsubset⟩ := (statements_of_becomes ⟨_, _, _, h⟩).exists_own hs
    cases hown.symm.trans (expandStatement_anywhere hnumbered hown' i)
    exact hsubset

/-- What a statement of a body mentions when it is expanded elsewhere is mentioned in the body, but
for the node of a numbered statement that has another place there. -/
theorem mentions_or_misplaced {s : Statement} (hs : s ∈ g.statements) {i k' : Nat} {own : Group}
    (hown : x.expandStatement s i = .ok (own, k')) {t t' : Statement} (ht : .statement t ∈ own)
    (ht' : t' ∈ t.withPermission) {v : Variable} (hv : t'.mentions v = true) :
    out.withPermissions.mentions v = true ∨
      x.isNumbered s = true ∧ (g.statements.filter x.isNumbered)[i]? ≠ some s ∧
        NamesNode s i v := by
  by_cases hplace : x.isNumbered s = true → (g.statements.filter x.isNumbered)[i]? = some s
  · have hmem := subset_of_same_place h hs hown hplace (Group.mem_statements ht)
    exact .inl (Group.mentions_of_mem (Group.mem_withPermissions hmem ht') hv)
  · obtain ⟨hnumbered, hplace⟩ := Classical.not_imp.1 hplace
    rcases mentions_of_isNumbered hnumbered hown ht ht' hv with hstart | hnode
    · exact .inl (mentions_of_start h hs hstart)
    · exact .inr ⟨hnumbered, hplace, hnode⟩

end

end Expander

/-- The statement says of the variable that it is the main resource. -/
def Statement.MarksMain (s : Statement) (v : Variable) : Prop :=
  s.subject = .var v ∧ s.hasMainPredicate = true ∧ s.object = .lit (.boolean true)

instance (s : Statement) (v : Variable) : Decidable (s.MarksMain v) :=
  inferInstanceAs (Decidable (_ ∧ _))

/-- What the template constructs is what the body asks for, apart from marking the main resource. -/
def Query.ConstructsAsked (q : Query) (main : Variable) : Prop :=
  ∀ s ∈ q.template, s.MarksMain main ∨ s ∈ q.body.statements

instance (q : Query) (main : Variable) : Decidable (q.ConstructsAsked main) :=
  inferInstanceAs (Decidable (∀ s ∈ q.template, _))

/-- The variable is a node that is numbered in the template otherwise than in the body, because the
numbered statement at the same place of the body is another one or is missing; or it is for the
permissions of such a node. -/
def Query.Misnumbered (q : Query) (x : Expander) (v : Variable) : Prop :=
  ∃ i s, ((q.template.map Statement.flatten).filter x.isNumbered)[i]? = some s ∧
    (q.body.flatten.statements.filter x.isNumbered)[i]? ≠ some s ∧ Expander.NamesNode s i v

/-- Nothing is misnumbered if the numbered statements of the body begin with those of the
template. -/
theorem Query.not_misnumbered_of_prefix {q : Query} {x : Expander}
    (h : (q.template.map Statement.flatten).filter x.isNumbered <+:
      q.body.flatten.statements.filter x.isNumbered) (v : Variable) : ¬ q.Misnumbered x v := by
  rintro ⟨i, s, htemplate, hbody, _⟩
  obtain ⟨rest, hrest⟩ := h
  apply hbody
  rw [← hrest, List.getElem?_append_left (List.getElem?_eq_some_iff.1 htemplate).1, htemplate]

/-- The template of a query for the store has the statements at the level of the expanded template
itself, with permissions; and the body mentions the main resource. -/
theorem Query.template_of_toStore {q : Query} {o : Ontology} {types : Types} {d : Dialect}
    {size : UInt32} {stored : StoreQuery} (h : q.toStore o types d size = .ok stored) :
    (∃ out k,
      Expander.expandGroup ⟨o, types⟩ ((q.template.map Statement.flatten).map .statement) [] 0 =
        .ok (out, k) ∧
      ∀ t ∈ stored.content.template, ∃ s, .statement s ∈ out ∧ t ∈ s.withPermission) ∧
    stored.content.body.mentions stored.content.mainResource = true := by
  obtain ⟨_, _, htemplate, hcount, _⟩ := Query.toStore_stages h
  constructor
  · obtain ⟨statements, hstatements, htemplate⟩ := bind_eq_ok.1 htemplate
    obtain ⟨expanded, hexpanded, hstatements⟩ := bind_eq_ok.1 hstatements
    obtain ⟨⟨out, k⟩, hout, rfl⟩ := map_eq_ok.1 hexpanded
    cases pure_eq_ok.1 hstatements
    refine ⟨out, k, hout, ?_⟩
    rw [← pure_eq_ok.1 htemplate]
    intro t ht
    obtain ⟨s, hs, ht⟩ := List.mem_flatMap.1 ht
    obtain ⟨p, hp, hs⟩ := List.mem_filterMap.1 hs
    have hpattern : p = .statement s := by
      cases p <;> cases hs
      rfl
    exact ⟨s, hpattern ▸ hp, ht⟩
  · exact (ContentQuery.counted_ok hcount).1

namespace Statement.MarksMain
variable {s : Statement} {main : Variable} (h : s.MarksMain main)
include h

theorem eq_of_start {v : Variable}
    (hv : s.flatten.subject = .var v ∨ s.flatten.predicate = .var v) : v = main := by
  rcases hv with hv | hv
  · have hsubject := Entity.flatten_eq_var.1 hv
    exact Entity.var.inj (hsubject.symm.trans h.1)
  · have hpredicate := Entity.flatten_eq_var.1 hv
    have hmain := h.2.1
    rw [Statement.hasMainPredicate, hpredicate] at hmain
    cases hmain

theorem object_flatten : s.flatten.object = .lit (.boolean true) := by
  change s.object.flatten = _
  rw [h.2.2]
  rfl

/-- Marking the main resource mentions no other variable, but for a numbered node. -/
theorem eq_or_node {x : Expander} {n k : Nat} {own : Group}
    (hown : x.expandStatement s.flatten n = .ok (own, k)) {t t' : Statement}
    (ht : .statement t ∈ own) (ht' : t' ∈ t.withPermission) {v : Variable}
    (hv : t'.mentions v = true) :
    v = main ∨ x.isNumbered s.flatten = true ∧ Expander.NamesNode s.flatten n v := by
  have hobject := h.object_flatten
  obtain ⟨_, rfl⟩ | ⟨hp, _⟩ | ⟨_, _, _, hliteral, _⟩ := x.expandStatement_ok hown
  · left
    cases List.mem_singleton.1 ht
    rcases Statement.mem_withPermission ht' with rfl | ⟨_, hmarker, _⟩
    · rw [Statement.mentions_eq_true, hobject] at hv
      rcases hv with hv | hv | hv
      · exact h.eq_of_start (.inl hv)
      · exact h.eq_of_start (.inr hv)
      · cases hv
    · rw [Statement.isDeletionMarker_iff, hobject] at hmarker
      exact absurd hmarker.2.2 (by decide)
  · have hnumbered : x.isNumbered s.flatten = true := by
      rw [Expander.isNumbered_iff, Expander.objectIsNode, hobject]
      exact ⟨hp, rfl, rfl⟩
    rcases Expander.mentions_of_isNumbered hnumbered hown ht ht' hv with hstart | hnode
    · exact .inl (h.eq_of_start hstart)
    · exact .inr ⟨hnumbered, hnode⟩
  · rw [hobject] at hliteral
    cases hliteral

end Statement.MarksMain

/-- **The template uses no variable that the body does not bind**, in a query that is typed and
compiled and that constructs only what its body asks for, apart from marking the main resource. The
exception are nodes whose number in the template is not their number in the body, and their
permissions. -/
theorem template_variables_bound {q : Query} {o : Ontology} {rounds : Nat} {types : Types}
    {d : Dialect} {size : UInt32} {stored : StoreQuery} (htypes : q.inferTypes o rounds = .ok types)
    (hstored : q.toStore o types d size = .ok stored)
    (hasked : q.ConstructsAsked stored.content.mainResource)
    {t : Statement} (ht : t ∈ stored.content.template) {v : Variable} (hv : t.mentions v = true) :
    stored.content.body.mentions v = true ∨ q.Misnumbered ⟨o, types⟩ v := by
  obtain ⟨⟨out, _, hout, htemplate⟩, hmain⟩ := Query.template_of_toStore hstored
  obtain ⟨expanded, hexpanded, hgains, _⟩ := Query.toStore_ok hstored
  obtain ⟨⟨expanded, _⟩, hbody, rfl⟩ := map_eq_ok.1 hexpanded
  have bound : expanded.withPermissions.mentions v = true →
      stored.content.body.mentions v = true := by
    intro h
    obtain ⟨s, hs, hmentions⟩ := List.any_eq_true.1 h
    exact Group.mentions_of_mem (mem_body_of_expanded hgains hs) hmentions
  obtain ⟨r, hr, ht⟩ := htemplate t ht
  rcases Expander.exists_source hout hr with
    ⟨_, hsource, i, own, _, hown, hr, hplace⟩ | ⟨w, hw, rfl⟩
  · obtain ⟨s, hs, rfl⟩ := List.mem_map.1 hsource
    rw [Nat.zero_add] at hown
    -- A statement that is not in the body, as it is stored, marks the main resource.
    by_cases hmem : s.flatten ∈ q.body.flatten.statements
    · rcases Expander.mentions_or_misplaced hbody hmem hown hr ht hv with hm | ⟨hn, hdiffers, hnode⟩
      · exact .inl (bound hm)
      · exact .inr ⟨i, s.flatten, hplace hn, hdiffers, hnode⟩
    · have hmarks := (hasked s hs).resolve_right fun hs => hmem (Group.mem_statements_flatten hs)
      rcases hmarks.eq_or_node hown hr ht hv with rfl | ⟨hn, hnode⟩
      · exact .inl hmain
      · refine .inr ⟨i, s.flatten, hplace hn, ?_, hnode⟩
        exact fun h => hmem (List.mem_of_mem_filter (List.mem_of_getElem? h))
  · obtain ⟨s, hs, hjoins⟩ := Query.joins_of_isResource htypes hw
    have hmarker := Expander.marker_of_resource hbody (Group.mem_statements_flatten hs)
      (Statement.joins_flatten.2 hjoins) hw
    exact .inl (bound (Group.mentions_of_mem (Group.mem_withPermissions hmarker ht) hv))

/-- An ontology in which resources have names and pages. -/
def namedPages : Definitions where
  properties :=
    [{ iri := "http://www.knora.org/ontology/0001/house#hasName", superproperties := [Base.hasValue]
       objectType := some Base.textValue },
     { iri := "http://www.knora.org/ontology/0001/house#hasPage", superproperties := [Base.hasValue]
       objectType := some Base.uriValue }]

def namedVilla : Statement :=
  ⟨.var ⟨"r"⟩, .ofIri "http://0.0.0.0:3333/ontology/0001/house/simple/v2#hasName",
    .lit (.string "Villa")⟩

def hasPage : Statement :=
  ⟨.var ⟨"r"⟩, .ofIri "http://0.0.0.0:3333/ontology/0001/house/simple/v2#hasPage",
    .ofIri "http://rdfh.ch/page"⟩

/-- Asks for resources of which some statements hold, and constructs them with their page. -/
def pageQuery (facts : List Statement) : Query where
  schema := .simple
  template :=
    [⟨.var ⟨"r"⟩, .ofIri (Simple.vocabulary ++ "isMainResource"), .lit (.boolean true)⟩, hasPage]
  body := facts.map .statement

/-- The node of the page is bound if the body asks for the page first. -/
theorem template_variables_bound_page :
    let q := pageQuery [hasPage, namedVilla]
    let node : Variable := ⟨"r__hasPage__valueNode1"⟩
    ∃ o types stored, Ontology.build namedPages = .ok o ∧ q.inferTypes o 32 = .ok types ∧
      q.toStore o types .fuseki defaultPageSize = .ok stored ∧
      q.ConstructsAsked stored.content.mainResource ∧
      ∃ t ∈ stored.content.template, t.mentions node = true ∧
        stored.content.body.mentions node = true := by
  intro q node
  obtain ⟨o, types, stored, hbuilt, htypes, _, hstored, hasked, ⟨t, ht, hv⟩, hprefix⟩ :=
    q.exists_stored .fuseki namedPages (fun o types stored =>
      q.ConstructsAsked stored.content.mainResource ∧
      (∃ t ∈ stored.content.template, t.mentions node = true) ∧
      (q.template.map Statement.flatten).filter (Expander.isNumbered ⟨o, types⟩) <+:
        q.body.flatten.statements.filter (Expander.isNumbered ⟨o, types⟩)) (by decide +kernel)
  exact ⟨o, types, stored, hbuilt, htypes, hstored, hasked, t, ht, hv,
    (template_variables_bound htypes hstored hasked ht hv).resolve_right
      (Query.not_misnumbered_of_prefix hprefix _)⟩

/-- **The template can use a node that the body does not bind.** If the body asks for a name first,
then the node of the page is the second there and the first in the template. -/
theorem numbered_page_unbound :
    let q := pageQuery [namedVilla, hasPage]
    let node : Variable := ⟨"r__hasPage__valueNode1"⟩
    ∃ o types stored, Ontology.build namedPages = .ok o ∧ q.inferTypes o 32 = .ok types ∧
      q.check types = .ok () ∧ q.toStore o types .graphDb defaultPageSize = .ok stored ∧
      q.ConstructsAsked stored.content.mainResource ∧
      (∃ t ∈ stored.content.template, t.mentions node = true) ∧
      stored.content.body.mentions node = false := by
  intro q node
  exact q.exists_stored .graphDb namedPages (fun _ _ stored =>
    q.ConstructsAsked stored.content.mainResource ∧
    (∃ t ∈ stored.content.template, t.mentions node = true) ∧
    stored.content.body.mentions node = false) (by decide +kernel)

end OntoQuery
