import OntoQuery.Proofs.GeneratedNames

/-!
# Which variables of the projection are bound

A page is ordered by some variables and counted by the main resource, and none of them has a value
unless it occurs in a statement of the body outside MINUS (`Group.Exposes`). The stages of the
compiler keep apart what is outside MINUS and what is inside, and of the variables that a caller may
name they expose those that the caller's body exposes. So what is looked at before a query goes to
the store decides: an order key that is a value node is looked for outside MINUS, the main resource
is looked for everywhere, and any other order key is not looked for (`projected_exposed_iff`).
-/

namespace OntoQuery

/-! ## What is outside MINUS -/

mutual

/-- What is left of the pattern without the MINUS groups in it. -/
def Pattern.withoutMinus : Pattern → Group
  | .statement s => [.statement s]
  | .optional g => [.optional (Group.withoutMinus g)]
  | .union gs => [.union (Group.allWithoutMinus gs)]
  | .filter e => [.filter e]
  | .minus _ => []

/-- The group without the MINUS groups in it, at any depth. -/
def Group.withoutMinus : Group → Group
  | [] => []
  | p :: ps => p.withoutMinus ++ Group.withoutMinus ps

def Group.allWithoutMinus : List Group → List Group
  | [] => []
  | g :: gs => Group.withoutMinus g :: Group.allWithoutMinus gs

end

namespace Group

/-- The variable occurs in a statement of the group that is not inside MINUS. -/
def Exposes (g : Group) (v : Variable) : Prop :=
  g.withoutMinus.mentions v = true

instance (g : Group) (v : Variable) : Decidable (g.Exposes v) :=
  inferInstanceAs (Decidable (_ = _))

theorem exposes_iff {g : Group} {v : Variable} :
    g.Exposes v ↔ ∃ s ∈ g.withoutMinus.statements, s.mentions v = true :=
  List.any_eq_true

theorem withoutMinus_statement (s : Statement) (ps : Group) :
    withoutMinus (.statement s :: ps) = .statement s :: ps.withoutMinus := rfl

theorem withoutMinus_optional (g ps : Group) :
    withoutMinus (.optional g :: ps) = .optional g.withoutMinus :: ps.withoutMinus := rfl

theorem withoutMinus_filter (e : Expression) (ps : Group) :
    withoutMinus (.filter e :: ps) = .filter e :: ps.withoutMinus := rfl

theorem withoutMinus_minus (g ps : Group) : withoutMinus (.minus g :: ps) = ps.withoutMinus := rfl

theorem allWithoutMinus_eq_map (gs : List Group) : allWithoutMinus gs = gs.map withoutMinus := by
  induction gs with
  | nil => rfl
  | cons g gs ih => rw [allWithoutMinus, ih, List.map_cons]

theorem withoutMinus_union (gs : List Group) (ps : Group) :
    withoutMinus (.union gs :: ps) = .union (gs.map withoutMinus) :: ps.withoutMinus := by
  rw [← allWithoutMinus_eq_map]
  rfl

theorem withoutMinus_append (g g' : Group) :
    withoutMinus (g ++ g') = g.withoutMinus ++ g'.withoutMinus := by
  induction g with
  | nil => rfl
  | cons p ps ih => rw [List.cons_append, withoutMinus, withoutMinus, ih, List.append_assoc]

theorem withoutMinus_map (ss : List Statement) :
    withoutMinus (ss.map Pattern.statement) = ss.map Pattern.statement := by
  induction ss with
  | nil => rfl
  | cons s ss ih => rw [List.map_cons, withoutMinus_statement, ih]

/-- If no MINUS is put in the place of a statement, then it is the same to rewrite first or to leave
MINUS out first. -/
theorem Rewriting.withoutMinus_eq {f : Group → Group} {put : Statement → Group}
    (hf : Rewriting f put) (hput : ∀ s, (put s).withoutMinus = put s) (g : Group) :
    (f g).withoutMinus = f g.withoutMinus := by
  induction g using Group.by_patterns with
  | nil => rw [hf.nil, withoutMinus, hf.nil]
  | statement s ps ih =>
    rw [hf.statement, withoutMinus_append, hput, ih, withoutMinus_statement, hf.statement]
  | optional g ps ihg ih =>
    rw [hf.optional, withoutMinus_optional, ihg, ih, withoutMinus_optional, hf.optional]
  | union gs ps ihg ih =>
    have hgs : (gs.map f).map withoutMinus = (gs.map withoutMinus).map f := by
      rw [List.map_map, List.map_map]
      exact List.map_congr_left ihg
    rw [hf.union, withoutMinus_union, hgs, ih, withoutMinus_union, hf.union]
  | filter e ps ih => rw [hf.filter, withoutMinus_filter, ih, withoutMinus_filter, hf.filter]
  | minus g ps _ ih => rw [hf.minus, withoutMinus_minus, ih, withoutMinus_minus]

theorem withoutMinus_flatten (g : Group) : g.flatten.withoutMinus = g.withoutMinus.flatten := by
  induction g using Group.by_patterns with
  | nil => rfl
  | statement s ps ih =>
    rw [flatten_cons, Pattern.map, withoutMinus_statement, ih, withoutMinus_statement, flatten_cons,
      Pattern.map]
  | optional g ps ihg ih =>
    have hg : (Pattern.maps Entity.flatten g).withoutMinus = flatten g.withoutMinus := ihg
    rw [flatten_cons, Pattern.map, withoutMinus_optional, hg, ih, withoutMinus_optional,
      flatten_cons, Pattern.map]
    rfl
  | union gs ps ihg ih =>
    have hgs : (gs.map flatten).map withoutMinus = (gs.map withoutMinus).map flatten := by
      rw [List.map_map, List.map_map]
      exact List.map_congr_left ihg
    rw [flatten_cons, Pattern.map, flatten_alternatives, withoutMinus_union, hgs, ih,
      withoutMinus_union, flatten_cons, Pattern.map, flatten_alternatives]
  | filter e ps ih =>
    rw [flatten_cons, Pattern.map, withoutMinus_filter, ih, withoutMinus_filter, flatten_cons,
      Pattern.map]
  | minus g ps _ ih => rw [flatten_cons, Pattern.map, withoutMinus_minus, ih, withoutMinus_minus]

/-- Finishing a group keeps MINUS apart. -/
theorem withoutMinus_finished (d : Dialect) (o : Ontology) (g : Group) :
    (g.finished d o).withoutMinus = g.withoutMinus.finished d o := by
  have hput : ∀ s, withoutMinus [(Pattern.statement s).compensate d o] =
      [(Pattern.statement s).compensate d o] := by
    intro s
    rw [Pattern.compensate_statement]
    split
    · rfl
    · rw [withoutMinus_union, List.map_map]
      rfl
  rw [finished, (compensate_rewriting d o).withoutMinus_eq hput,
    withPermissions_rewriting.withoutMinus_eq fun s => withoutMinus_map s.withPermission]
  rfl

/-! ## Order keys are looked for outside MINUS -/

section
variable (v : Variable) (s : Statement)

theorem binds_withoutMinus (g : Group) : g.withoutMinus.binds v = g.binds v := by
  have hstatements :
      g.withoutMinus.filterMap Pattern.statement? = g.filterMap Pattern.statement? := by
    induction g with
    | nil => rfl
    | cons p ps ih =>
      rw [withoutMinus, List.filterMap_append, ih]
      cases p <;> rfl
  rw [binds, hstatements, binds]

theorem extend_withoutMinus {g : Group}
    (h : addInside v s g.withoutMinus = ((addInside v s g).1.withoutMinus, (addInside v s g).2)) :
    extend v s g.withoutMinus (addInside v s g.withoutMinus) =
      ((extend v s g (addInside v s g)).1.withoutMinus, (extend v s g (addInside v s g)).2) := by
  unfold extend
  rw [binds_withoutMinus]
  split
  · rw [withoutMinus_append]
    rfl
  · exact h

theorem addInsideAll_withoutMinus {gs : List Group}
    (ih : ∀ g ∈ gs, addInside v s g.withoutMinus =
      ((addInside v s g).1.withoutMinus, (addInside v s g).2)) :
    addInsideAll v s (gs.map withoutMinus) =
      ((addInsideAll v s gs).1.map withoutMinus, (addInsideAll v s gs).2) := by
  induction gs with
  | nil => rfl
  | cons g gs ihs =>
    have hg := extend_withoutMinus v s (ih g List.mem_cons_self)
    have hgs := ihs fun g hg => ih g (List.mem_cons_of_mem _ hg)
    simp only [List.map_cons, addInsideAll, hg, hgs]

/-- A statement is added in the same places if MINUS is left out. -/
theorem addInside_withoutMinus (g : Group) : addInside v s g.withoutMinus =
    ((addInside v s g).1.withoutMinus, (addInside v s g).2) := by
  induction g using Group.by_patterns with
  | nil => rfl
  | statement t ps ih =>
    simp only [withoutMinus_statement, addInside, Pattern.addWhereBound, ih]
  | optional g ps ihg ih =>
    have hg := extend_withoutMinus v s ihg
    simp only [withoutMinus_optional, addInside, Pattern.addWhereBound, ih, hg]
  | union gs ps ihg ih =>
    have hgs := addInsideAll_withoutMinus v s ihg
    simp only [withoutMinus_union, addInside, Pattern.addWhereBound, ih, hgs]
  | filter e ps ih =>
    simp only [withoutMinus_filter, addInside, Pattern.addWhereBound, ih]
  | minus g ps _ ih =>
    simp only [withoutMinus_minus, addInside, Pattern.addWhereBound, ih, Bool.false_or]

theorem addWhereBound?_withoutMinus {g g' : Group} (h : g.addWhereBound? v s = some g') :
    g.withoutMinus.addWhereBound? v s = some g'.withoutMinus := by
  unfold addWhereBound? at h ⊢
  rw [extend_withoutMinus v s (addInside_withoutMinus v s g)]
  split at h
  · rename_i heq
    cases h
    rw [heq]
  · cases h

end

section
variable {v : Variable} {s : Statement}

/-- If the statement has been added, then it is there, and the variable has been found. -/
def Found (v : Variable) (s : Statement) (g : Group) (added : Group × Bool) : Prop :=
  added.2 = true → (∃ t ∈ g.statements, t.Joins v) ∧ s ∈ added.1.statements

theorem joins_of_binds {g : Group} (h : g.binds v = true) : ∃ t ∈ g.statements, t.Joins v := by
  obtain ⟨t, ht, hjoins⟩ := List.any_eq_true.1 h
  obtain ⟨p, hp, hstatement⟩ := List.mem_filterMap.1 ht
  have hpattern : p = .statement t := by
    cases p <;> cases hstatement
    rfl
  refine ⟨t, mem_statements (hpattern ▸ hp), ?_⟩
  simpa [Statement.Joins] using hjoins

theorem Found.extend {g : Group} {inside : Group × Bool} (h : Found v s g inside) :
    Found v s g (Group.extend v s g inside) := by
  unfold Group.extend
  split
  · rename_i hbinds
    exact fun _ => ⟨joins_of_binds hbinds, mem_statements (by simp)⟩
  · exact h

theorem Found.append {g g' : Group} {added added' : Group × Bool} (h : Found v s g added)
    (h' : Found v s g' added') :
      Found v s (g ++ g') (added.1 ++ added'.1, added.2 || added'.2) := by
  intro hadded
  rw [statements_append, statements_append]
  rcases Bool.or_eq_true_iff.1 hadded with hadded | hadded
  · obtain ⟨⟨t, ht, hjoins⟩, hs⟩ := h hadded
    exact ⟨⟨t, List.mem_append_left _ ht, hjoins⟩, List.mem_append_left _ hs⟩
  · obtain ⟨⟨t, ht, hjoins⟩, hs⟩ := h' hadded
    exact ⟨⟨t, List.mem_append_right _ ht, hjoins⟩, List.mem_append_right _ hs⟩

theorem found_alternatives {gs : List Group} (ih : ∀ g ∈ gs, Found v s g (addInside v s g)) :
    Found v s [.union gs] ([.union (addInsideAll v s gs).1], (addInsideAll v s gs).2) := by
  unfold Found
  simp only [statements_union, statements_nil, List.append_nil]
  induction gs with
  | nil => exact nofun
  | cons g gs ihs =>
    intro hadded
    simp only [addInsideAll, List.flatMap_cons, List.mem_append] at hadded ⊢
    rcases Bool.or_eq_true_iff.1 hadded with hadded | hadded
    · obtain ⟨⟨t, ht, hjoins⟩, hs⟩ := (ih g List.mem_cons_self).extend hadded
      exact ⟨⟨t, .inl ht, hjoins⟩, .inl hs⟩
    · obtain ⟨⟨t, ht, hjoins⟩, hs⟩ := ihs (fun g hg => ih g (List.mem_cons_of_mem _ hg)) hadded
      exact ⟨⟨t, .inr ht, hjoins⟩, .inr hs⟩

theorem found_inside (g : Group) : Found v s g (addInside v s g) := by
  have unchanged : ∀ p : Pattern, Found v s [p] ([p], false) := fun _ => nofun
  induction g using Group.by_patterns with
  | nil => exact nofun
  | statement t ps ih => exact (unchanged (.statement t)).append ih
  | optional g ps ihg ih =>
    have hfirst : Found v s [.optional g]
        ([.optional (Group.extend v s g (addInside v s g)).1],
          (Group.extend v s g (addInside v s g)).2) := by
      simpa [Found] using ihg.extend
    exact hfirst.append ih
  | union gs ps ihg ih => exact (found_alternatives ihg).append ih
  | filter e ps ih => exact (unchanged (.filter e)).append ih
  | minus g ps _ ih => exact (unchanged (.minus g)).append ih

/-- Where a statement is added, the variable is joined already. -/
theorem addWhereBound?_found {g g' : Group} (h : g.addWhereBound? v s = some g') :
    (∃ t ∈ g.statements, t.Joins v) ∧ s ∈ g'.statements := by
  have hfound : Found v s g (Group.extend v s g (addInside v s g)) := (found_inside g).extend
  unfold addWhereBound? at h
  split at h
  · rename_i heq
    cases h
    rw [heq] at hfound
    exact hfound rfl
  · cases h

end

end Group

namespace Expander
variable {x : Expander}

theorem orderByContent_keys {cs order : List OrderCriterion} {body body' : Group}
    (h : x.orderByContent cs body = .ok (order, body')) : order = cs.map x.orderKey := by
  induction cs generalizing body order with
  | nil =>
    rw [orderByContent] at h
    cases h
    rfl
  | cons c cs ih =>
    obtain ⟨rest, middle, rfl, hrest, _⟩ := orderByContent_cons_ok h
    rw [ih hrest, List.map_cons]

theorem mentions_contentStatement {v w : Variable} {predicate : Iri} :
    (⟨.var v, .ofIri predicate, .var v.orderContent⟩ : Statement).mentions w = true ↔
      w = v ∨ w = v.orderContent := by
  rw [Statement.mentions_eq_true]
  simp [Entity.ofIri, @eq_comm _ w]

/-- Ordering by content exposes no other variable that a caller may name, and hides none. -/
theorem exposes_orderByContent {cs order : List OrderCriterion} {body body' : Group}
    (h : x.orderByContent cs body = .ok (order, body')) {v : Variable} (hv : v.isReserved = false) :
    body'.Exposes v ↔ body.Exposes v := by
  induction cs generalizing body order with
  | nil =>
    rw [orderByContent] at h
    cases h
    rfl
  | cons c cs ih =>
    obtain ⟨rest, middle, _, hrest, ⟨_, rfl⟩ | ⟨kind, _, hadded⟩⟩ := orderByContent_cons_ok h
    · exact ih hrest
    · have hadded := Group.addWhereBound?_withoutMinus _ _ hadded
      have hgains : Group.Gains (Eq _) _ _ := Group.addWhereBound?_gains rfl hadded
      refine (ih hrest).trans ?_
      rw [Group.exposes_iff, Group.exposes_iff]
      constructor
      · rintro ⟨t, ht, hmentions⟩
        rcases hgains.adds t ht with ht | rfl
        · exact ⟨t, ht, hmentions⟩
        · rcases mentions_contentStatement.1 hmentions with rfl | rfl
          · obtain ⟨⟨t, ht, hjoins⟩, _⟩ := Group.addWhereBound?_found hadded
            exact ⟨t, ht, mentions_of_joins hjoins⟩
          · rw [Variable.orderContent_reserved] at hv
            cases hv
      · rintro ⟨t, ht, hmentions⟩
        exact ⟨t, hgains.keeps t ht, hmentions⟩

theorem orderByContent_keeps {cs order : List OrderCriterion} {body body' : Group}
    (h : x.orderByContent cs body = .ok (order, body')) :
    body.withoutMinus.statements ⊆ body'.withoutMinus.statements := by
  induction cs generalizing body order with
  | nil =>
    rw [orderByContent] at h
    cases h
    exact List.Subset.refl _
  | cons c cs ih =>
    obtain ⟨rest, middle, _, hrest, ⟨_, rfl⟩ | ⟨kind, _, hadded⟩⟩ := orderByContent_cons_ok h
    · exact ih hrest
    · have hadded := Group.addWhereBound?_withoutMinus _ _ hadded
      have hgains : Group.Gains (Eq _) _ _ := Group.addWhereBound?_gains rfl hadded
      exact List.Subset.trans hgains.keeps (ih hrest)

/-- The content of an order key that is a value node is always exposed. -/
theorem exposes_orderContent {cs order : List OrderCriterion} {body body' : Group}
    (h : x.orderByContent cs body = .ok (order, body')) {c : OrderCriterion} (hc : c ∈ cs)
    {kind : ValueKind} (hkind : x.orderKind? c.key = some kind) :
    body'.Exposes c.key.orderContent := by
  induction cs generalizing body order with
  | nil => cases hc
  | cons c' cs ih =>
    obtain ⟨rest, middle, _, hrest, hmiddle⟩ := orderByContent_cons_ok h
    rcases List.mem_cons.1 hc with rfl | hc
    · rcases hmiddle with ⟨hnone, _⟩ | ⟨kind, _, hadded⟩
      · cases hkind.symm.trans hnone
      · have hs := (Group.addWhereBound?_found (Group.addWhereBound?_withoutMinus _ _ hadded)).2
        exact Group.exposes_iff.2
          ⟨_, orderByContent_keeps hrest hs, mentions_contentStatement.2 (.inr rfl)⟩
    · exact ih hrest hc

/-! ## Expansion keeps MINUS apart -/

theorem withoutMinus_expandStatement {s : Statement} {n k : Nat} {made : Group}
    (h : x.expandStatement s n = .ok (made, k)) : made.withoutMinus = made := by
  obtain ⟨_, rfl⟩ | ⟨_, rest, rfl, rfl | ⟨_, rfl⟩⟩ | ⟨_, _, _, _, rfl⟩ := x.expandStatement_ok h
  · rfl
  · rfl
  · rfl
  · rfl

theorem withoutMinus_markers (vs : List Variable) : (markers vs).withoutMinus = markers vs := by
  have heq : markers vs = (vs.map fun v => Statement.deletionMarker (.var v)).map .statement :=
    List.map_map.symm
  rw [heq, Group.withoutMinus_map]

/-- What becomes of a group has, outside MINUS, the statements of pieces, one piece for each
statement of the group outside MINUS. -/
theorem exposed_of_becomes {g out : Group} (h : x.Becomes g out) :
    x.PiecesOf g.withoutMinus.statements out.withoutMinus.statements := by
  induction g using Group.by_patterns generalizing out with
  | nil =>
    rw [becomes_nil h]
    exact ⟨[], .nil, rfl⟩
  | statement s ps ih =>
    obtain ⟨_, rest, rfl, hrest, n, made, k, marked, hmade, rfl⟩ := becomes_cons h
    have hfirst : x.PiecesOf [s] (Group.statements (made ++ markers (x.unmarked marked s))) :=
      ⟨[_], .cons (makesOf_unmarked hmade marked) .nil, (List.flatMap_singleton _ _).symm⟩
    have hmarkers : (markers (x.unmarked marked s)).withoutMinus = markers (x.unmarked marked s) :=
      withoutMinus_markers _
    rw [Group.withoutMinus_append, Group.withoutMinus_append, withoutMinus_expandStatement hmade,
      hmarkers, Group.statements_append, Group.withoutMinus_statement, Group.statements_statement]
    exact hfirst.append (ih hrest)
  | optional g ps ihg ih =>
    obtain ⟨_, rest, rfl, hrest, inner, hinner, rfl⟩ := becomes_cons h
    rw [List.singleton_append, Group.withoutMinus_optional, Group.withoutMinus_optional,
      Group.statements_optional, Group.statements_optional]
    exact (ihg hinner).append (ih hrest)
  | union gs ps ihg ih =>
    obtain ⟨_, rest, rfl, hrest, inners, hinners, rfl⟩ := becomes_cons h
    have hgs : List.Forall₂ (fun g inner => x.PiecesOf g.statements inner.statements)
        (gs.map Group.withoutMinus) (inners.map Group.withoutMinus) :=
      forall₂_map_of_mem hinners fun g hg inner hinner => ihg g hg hinner
    rw [List.singleton_append, Group.withoutMinus_union, Group.withoutMinus_union,
      Group.statements_union, Group.statements_union]
    exact (PiecesOf.flatMap hgs).append (ih hrest)
  | filter e ps ih =>
    obtain ⟨first, rest, rfl, hrest, hfirst⟩ := becomes_cons h
    have hfirst : first = [.filter e] := hfirst
    rw [hfirst, List.singleton_append, Group.withoutMinus_filter, Group.withoutMinus_filter,
      Group.statements_filter, Group.statements_filter]
    exact ih hrest
  | minus g ps _ ih =>
    obtain ⟨_, rest, rfl, hrest, inner, _, rfl⟩ := becomes_cons h
    rw [List.singleton_append, Group.withoutMinus_minus, Group.withoutMinus_minus]
    exact ih hrest

/-- The object of a value statement is its node, or what the node leads to. -/
theorem exists_object {s : Statement} {n k : Nat} {own : Group}
    (h : x.expandStatement s n = .ok (own, k)) : ∃ t ∈ own.statements, t.object = s.object := by
  cases x.expandStatement_eq_ok.1 h with
  | direct => exact ⟨s, List.mem_cons_self, rfl⟩
  | node _ hnode => exact ⟨_, Group.mem_statements List.mem_cons_self, by simp [node, hnode]⟩
  | content => exact ⟨_, Group.mem_statements (List.mem_append_right _ List.mem_cons_self), rfl⟩
  | link => exact ⟨s, Group.mem_statements List.mem_cons_self, rfl⟩

/-- Whatever a statement becomes, its variables are still there. -/
theorem exists_mention {s : Statement} {n k : Nat} {own : Group}
    (h : x.expandStatement s n = .ok (own, k)) {v : Variable} (hv : s.mentions v = true) :
    ∃ t ∈ own.statements, t.mentions v = true := by
  obtain ⟨t, ht, hsubject, hpredicate⟩ := exists_same_start h
  obtain ⟨t', ht', hobject⟩ := exists_object h
  rcases Statement.mentions_eq_true.1 hv with hv | hv | hv
  · exact ⟨t, ht, Statement.mentions_eq_true.2 (.inl (hsubject.trans hv))⟩
  · exact ⟨t, ht, Statement.mentions_eq_true.2 (.inr (.inl (hpredicate.trans hv)))⟩
  · exact ⟨t', ht', Statement.mentions_eq_true.2 (.inr (.inr (hobject.trans hv)))⟩

/-- Expansion exposes no other variable that a caller may name, and hides none. -/
theorem exposes_expand {g out : Group} (h : x.expand g.flatten = .ok out) {v : Variable}
    (hv : v.isReserved = false) : out.Exposes v ↔ g.Exposes v := by
  obtain ⟨⟨_, k⟩, hrun, rfl⟩ := map_eq_ok.1 h
  have hpieces := exposed_of_becomes ⟨_, _, _, hrun⟩
  rw [Group.withoutMinus_flatten, Group.statements_flatten] at hpieces
  rw [Group.exposes_iff, Group.exposes_iff]
  constructor
  · rintro ⟨t, ht, hmentions⟩
    have haccounts : x.Accounts _ [] v := hpieces.accounts ht List.mem_cons_self hmentions
    rcases haccounts with ⟨_, hflat, hmentions⟩ | ⟨_, hgenerates⟩
    · obtain ⟨s, hs, rfl⟩ := List.mem_map.1 hflat
      exact ⟨s, hs, Query.mentions_flatten.1 hmentions⟩
    · cases hv.symm.trans hgenerates.reserved
  · rintro ⟨s, hs, hmentions⟩
    obtain ⟨n, k, own, hown, hsubset⟩ := hpieces.exists_own (List.mem_map.2 ⟨s, hs, rfl⟩)
    obtain ⟨t, ht, hmentions⟩ := exists_mention hown (Query.mentions_flatten.2 hmentions)
    exact ⟨t, hsubset ht, hmentions⟩

end Expander

/-- Finishing exposes no other variable that a caller may name, and hides none. -/
theorem Group.exposes_finished {g : Group} (d : Dialect) (o : Ontology) {v : Variable}
    (hv : v.isReserved = false) : (g.finished d o).Exposes v ↔ g.Exposes v := by
  rw [exposes_iff, exposes_iff, withoutMinus_finished, finished, statements_compensate,
    statements_withPermissions]
  constructor
  · rintro ⟨t, ht, hmentions⟩
    obtain ⟨s, hs, ht⟩ := List.mem_flatMap.1 ht
    obtain ⟨r, hr, hs⟩ := List.mem_flatMap.1 hs
    have hmentions := Statement.mentions_of_mem_variants ht hmentions
    rcases Statement.mem_withPermission hs with rfl | ⟨w, _, hsubject, rfl⟩
    · exact ⟨s, hr, hmentions⟩
    · refine ⟨r, hr, Statement.mentions_eq_true.2 (.inl ?_)⟩
      rcases Statement.mentions_eq_true.1 hmentions with h | h | h
      · exact hsubject.trans h
      · cases h
      · cases h
        cases hv.symm.trans (Variable.permissions_reserved w)
  · rintro ⟨r, hr, hmentions⟩
    exact ⟨r, List.mem_flatMap.2 ⟨r, List.mem_flatMap.2 ⟨r, hr, List.mem_cons_self⟩,
      Statement.self_mem_variants d o r⟩, hmentions⟩

/-! ## What is projected -/

/-- The variables that a page is counted and ordered by. -/
def StoreQuery.projected (q : StoreQuery) : List Variable :=
  q.content.mainResource :: q.count.mainResource :: q.content.orderBy.map (·.key)

theorem OrderCriterion.mem_breakTies {order : List OrderCriterion} {main v : Variable} :
    v ∈ (breakTies order main).map (·.key) ↔ v ∈ order.map (·.key) ∨ v = main := by
  unfold breakTies
  split
  · rename_i hmain
    obtain ⟨c, hc, hkey⟩ := List.any_eq_true.1 hmain
    have hmem : main ∈ order.map (·.key) := List.mem_map.2 ⟨c, hc, beq_iff_eq.1 hkey⟩
    exact ⟨.inl, fun h => h.elim id fun h => h ▸ hmem⟩
  · rw [List.map_append, List.mem_append, List.map_singleton, List.mem_singleton]

namespace Query
variable {q : Query} {o : Ontology} {types : Types} {d : Dialect} {size : UInt32}
  {stored : StoreQuery}

/-- The body for the store exposes the variables that the caller's body exposes, of those that a
caller may name. -/
theorem exposes_body (h : q.toStore o types d size = .ok stored) {v : Variable}
    (hv : v.isReserved = false) : stored.content.body.Exposes v ↔ q.body.Exposes v := by
  obtain ⟨_, ⟨_, _, hexpanded, horder⟩, _⟩ := toStore_stages h
  rw [Expander.exposes_orderByContent horder hv, Group.exposes_finished d o hv,
    Expander.exposes_expand hexpanded hv]

theorem exposes_content (h : q.toStore o types d size = .ok stored) {c : OrderCriterion}
    (hc : c ∈ q.orderBy) {kind : ValueKind}
    (hkind : Expander.orderKind? ⟨o, types⟩ c.key = some kind) :
    stored.content.body.Exposes c.key.orderContent := by
  obtain ⟨_, ⟨_, _, _, horder⟩, _⟩ := toStore_stages h
  exact Expander.exposes_orderContent horder hc hkind

theorem orderBy_of_toStore (h : q.toStore o types d size = .ok stored) :
    stored.content.orderBy =
      OrderCriterion.breakTies (q.orderBy.map (Expander.orderKey ⟨o, types⟩))
        stored.content.mainResource := by
  obtain ⟨main, _, h⟩ := bind_eq_ok.1 h
  obtain ⟨body, _, h⟩ := bind_eq_ok.1 h
  obtain ⟨⟨order, ordered⟩, horder, h⟩ := bind_eq_ok.1 h
  obtain ⟨template, _, h⟩ := bind_eq_ok.1 h
  obtain ⟨count, _, h⟩ := bind_eq_ok.1 h
  cases pure_eq_ok.1 h
  rw [Expander.orderByContent_keys horder]

theorem count_of_toStore (h : q.toStore o types d size = .ok stored) :
    stored.count.mainResource = stored.content.mainResource := by
  rw [(ContentQuery.counted_ok (toStore_counted h)).2]

/-- What is projected: the main resource, and the order keys as results are ordered by them. -/
theorem mem_projected (h : q.toStore o types d size = .ok stored) {v : Variable} :
    v ∈ stored.projected ↔ v = stored.content.mainResource ∨
      ∃ c ∈ q.orderBy, v = (Expander.orderKey ⟨o, types⟩ c).key := by
  rw [StoreQuery.projected, List.mem_cons, List.mem_cons, count_of_toStore h, orderBy_of_toStore h,
    OrderCriterion.mem_breakTies, List.map_map, List.mem_map]
  constructor
  · rintro (hmain | hmain | ⟨c, hc, hkey⟩ | hmain)
    · exact .inl hmain
    · exact .inl hmain
    · exact .inr ⟨c, hc, hkey.symm⟩
    · exact .inl hmain
  · rintro (hmain | ⟨c, hc, hkey⟩)
    · exact .inl hmain
    · exact .inr (.inr (.inl ⟨c, hc, hkey.symm⟩))

theorem main_not_reserved (hcheck : q.check types = .ok ())
    (h : q.toStore o types d size = .ok stored) :
      stored.content.mainResource.isReserved = false := by
  obtain ⟨s, hs, hsubject⟩ := template_of_mainResource (mainResource_of_toStore h)
  exact Writes.not_reserved hcheck (.inr ⟨s, hs, Statement.mentions_eq_true.2 (.inl hsubject)⟩)

end Query

/-- **When everything that is projected is bound.** Take a checked query that comes to the store,
and let no order key have a reserved name, value nodes apart. The main resource and all variables
that the page is ordered by occur in the body for the store outside MINUS, exactly if the main
resource and all order keys that are no value nodes occur outside MINUS in the caller's body. -/
theorem projected_exposed_iff {q : Query} {o : Ontology} {types : Types} {d : Dialect}
    {size : UInt32} {stored : StoreQuery} (hcheck : q.check types = .ok ())
    (hstored : q.toStore o types d size = .ok stored)
    (hnames : ∀ c ∈ q.orderBy, Expander.orderKind? ⟨o, types⟩ c.key = none →
      c.key.isReserved = false) :
    (∀ v ∈ stored.projected, stored.content.body.Exposes v) ↔
      q.body.Exposes stored.content.mainResource ∧
        ∀ c ∈ q.orderBy, Expander.orderKind? ⟨o, types⟩ c.key = none → q.body.Exposes c.key := by
  have hmain := Query.main_not_reserved hcheck hstored
  constructor
  · intro h
    refine ⟨(Query.exposes_body hstored hmain).1 (h _ ((Query.mem_projected hstored).2 (.inl rfl))),
      ?_⟩
    intro c hc hkind
    have hkey : c.key = (Expander.orderKey ⟨o, types⟩ c).key := by simp [Expander.orderKey, hkind]
    exact (Query.exposes_body hstored (hnames c hc hkind)).1
      (h _ ((Query.mem_projected hstored).2 (.inr ⟨c, hc, hkey⟩)))
  · rintro ⟨hbody, horder⟩ v hv
    rcases (Query.mem_projected hstored).1 hv with rfl | ⟨c, hc, rfl⟩
    · exact (Query.exposes_body hstored hmain).2 hbody
    · unfold Expander.orderKey
      cases hkind : Expander.orderKind? ⟨o, types⟩ c.key with
      | none => exact (Query.exposes_body hstored (hnames c hc hkind)).2 (horder c hc hkind)
      | some kind => exact Query.exposes_content hstored hc hkind

/-- Asks for resources, with these keys for their order. -/
def orderedResources (body : Group) (keys : List Variable) : Query where
  schema := .complex
  template :=
    [⟨.var ⟨"r"⟩, .ofIri (Complex.vocabulary ++ "isMainResource"), .lit (.boolean true)⟩]
  body := body
  orderBy := keys.map fun v => { key := v }

/-- The variable is of this class of the complex schema. -/
def Pattern.isOf (v : Variable) (name : String) : Pattern :=
  .triple (.var v) (.ofIri Rdf.type) (.ofIri (Complex.vocabulary ++ name))

/-- A page is ordered by the content of a text under OPTIONAL and by a second resource, and counted
by a main resource in a UNION; what else stands under MINUS does no harm. -/
theorem projected_exposed_iff_union :
    let q := orderedResources
      [.union [[.isOf ⟨"r"⟩ "Resource", .optional [.isOf ⟨"t"⟩ "TextValue"]],
        [.isOf ⟨"x"⟩ "Resource"]], .minus [.isOf ⟨"y"⟩ "Resource"]] [⟨"t"⟩, ⟨"x"⟩]
    ∃ o types stored, Ontology.build {} = .ok o ∧ q.inferTypes o 32 = .ok types ∧
      q.check types = .ok () ∧ q.toStore o types .graphDb defaultPageSize = .ok stored ∧
      stored.projected = [⟨"r"⟩, ⟨"r"⟩, ⟨"t__orderContent"⟩, ⟨"x"⟩, ⟨"r"⟩] ∧
      ∀ v ∈ stored.projected, stored.content.body.Exposes v := by
  intro q
  obtain ⟨o, types, stored, hbuilt, htypes, hchecked, hstored, hprojected, hnames, hexposed⟩ :=
    q.exists_stored .graphDb {} (fun o types stored =>
      stored.projected = [⟨"r"⟩, ⟨"r"⟩, ⟨"t__orderContent"⟩, ⟨"x"⟩, ⟨"r"⟩] ∧
      (∀ c ∈ q.orderBy, Expander.orderKind? ⟨o, types⟩ c.key = none → c.key.isReserved = false) ∧
      q.body.Exposes stored.content.mainResource ∧
        ∀ c ∈ q.orderBy, Expander.orderKind? ⟨o, types⟩ c.key = none → q.body.Exposes c.key)
      (by decide +kernel)
  exact ⟨o, types, stored, hbuilt, htypes, hchecked, hstored, hprojected,
    (projected_exposed_iff hchecked hstored hnames).2 hexposed⟩

/-- **What is projected need not be bound.** A query whose main resource and order key occur under
MINUS only is typed, checked and compiled; the body exposes neither. -/
theorem projection_not_exposed :
    let q := orderedResources
      [.isOf ⟨"x"⟩ "Resource", .minus [.isOf ⟨"r"⟩ "Resource", .isOf ⟨"y"⟩ "Resource"]] [⟨"y"⟩]
    ∃ o types stored, Ontology.build {} = .ok o ∧ q.inferTypes o 32 = .ok types ∧
      q.check types = .ok () ∧ q.toStore o types .graphDb defaultPageSize = .ok stored ∧
      stored.content.mainResource ∈ stored.projected ∧ ⟨"y"⟩ ∈ stored.projected ∧
      ¬ stored.content.body.Exposes stored.content.mainResource ∧
      ¬ stored.content.body.Exposes ⟨"y"⟩ := by
  intro q
  exact q.exists_stored .graphDb {} (fun _ _ stored =>
    stored.content.mainResource ∈ stored.projected ∧ ⟨"y"⟩ ∈ stored.projected ∧
    ¬ stored.content.body.Exposes stored.content.mainResource ∧
    ¬ stored.content.body.Exposes ⟨"y"⟩) (by decide +kernel)

end OntoQuery
