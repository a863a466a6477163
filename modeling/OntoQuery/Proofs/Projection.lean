import OntoQuery.Proofs.Entities
import OntoQuery.Proofs.Solutions

/-!
# Solutions seen through some of their variables

Two solutions that share no other variables can be compared, joined and told apart by the variables
that are kept (`Solution.compatible_restrict`, `Solution.shares_restrict`), and so can conditions
that mention no others (`Expression.holds_restrict`). Statements that are joined one after the other
match together (`Group.matchFrom_statements`).
-/

namespace OntoQuery

namespace Solution
variable {keep : Variable → Bool} {l m n : Solution}

theorem isSome_merge (m n : Solution) (v : Variable) :
    (m.merge n v).isSome = ((m v).isSome || (n v).isSome) :=
  Option.isSome_or

theorem merge_assoc (l m n : Solution) : (l.merge m).merge n = l.merge (m.merge n) := by
  funext v
  exact Option.or_assoc

theorem compatible_merge (h : l.Compatible m) :
    (l.merge m).Compatible n ↔ l.Compatible n ∧ m.Compatible n := by
  constructor
  · intro hn
    refine ⟨fun v a b ha hb => hn v a b (l.merge_extends_left m v a ha) hb, ?_⟩
    exact fun v a b ha hb => hn v a b (merge_extends_right h v a ha) hb
  · rintro ⟨hl, hm⟩ v a b ha hb
    cases hlv : l v with
    | some c =>
      rw [merge, hlv, Option.some_or] at ha
      exact hl v a b (hlv.trans ha) hb
    | none =>
      rw [merge, hlv, Option.none_or] at ha
      exact hm v a b ha hb

theorem isSome_restrict (m : Solution) (keep : Variable → Bool) (v : Variable) :
    (m.restrict keep v).isSome = (keep v && (m v).isSome) := by
  unfold restrict
  cases keep v <;> rfl

theorem restrict_eq_some {v : Variable} {a : Node} :
    m.restrict keep v = some a ↔ keep v = true ∧ m v = some a := by
  simp [restrict]

theorem restrict_merge (m n : Solution) (keep : Variable → Bool) :
    (m.merge n).restrict keep = (m.restrict keep).merge (n.restrict keep) := by
  funext v
  cases h : keep v <;> simp [restrict, merge, h]

/-- A solution over kept variables is seen whole. -/
theorem restrict_eq_self (h : ∀ v, (m v).isSome = true → keep v = true) : m.restrict keep = m := by
  funext v
  cases hm : m v with
  | none => simp [restrict, hm]
  | some a => simp [restrict, h v (by simp [hm]), hm]

/-- Parts that cover a solution make it up. -/
theorem restrict_merge_restrict {keep keep' : Variable → Bool}
    (h : ∀ v, (m v).isSome = true → (keep v || keep' v) = true) :
    (m.restrict keep).merge (m.restrict keep') = m := by
  funext v
  cases hm : m v with
  | none => simp [merge, restrict, hm]
  | some a =>
    have hv := h v (by simp [hm])
    cases hk : keep v with
    | true => simp [merge, restrict, hm, hk]
    | false =>
      rw [hk, Bool.false_or] at hv
      simp [merge, restrict, hm, hk, hv]

/-- The solutions have no variables in common but kept ones. -/
def MeetIn (keep : Variable → Bool) (m n : Solution) : Prop :=
  ∀ v, (m v).isSome = true → (n v).isSome = true → keep v = true

theorem compatible_restrict (h : MeetIn keep m n) :
    (m.restrict keep).Compatible (n.restrict keep) ↔ m.Compatible n := by
  constructor
  · intro hc v a b ha hb
    have hv := h v (by simp [ha]) (by simp [hb])
    exact hc v a b (restrict_eq_some.2 ⟨hv, ha⟩) (restrict_eq_some.2 ⟨hv, hb⟩)
  · intro hc v a b ha hb
    exact hc v a b (restrict_eq_some.1 ha).2 (restrict_eq_some.1 hb).2

theorem shares_restrict (h : MeetIn keep m n) :
    (m.restrict keep).Shares (n.restrict keep) ↔ m.Shares n := by
  simp only [Shares, isSome_restrict, Bool.and_eq_true]
  constructor
  · rintro ⟨v, ⟨_, hm⟩, _, hn⟩
    exact ⟨v, hm, hn⟩
  · rintro ⟨v, hm, hn⟩
    exact ⟨v, ⟨h v hm hn, hm⟩, h v hm hn, hn⟩

end Solution

/-! ## Conditions -/

theorem Entity.node?_congr {m n : Solution} {e : Entity} (h : ∀ v, e = .var v → m v = n v) :
    e.node? m = e.node? n := by
  cases e with
  | iri ref => rfl
  | var v => exact h v rfl
  | lit l => rfl

section
variable {ops : Operators} {m n : Solution}

mutual

/-- What an expression comes to depends on its variables only. -/
theorem Expression.outcome_congr :
    ∀ e : Expression, (∀ v, .var v ∈ e.typeables → m v = n v) → e.outcome ops m = e.outcome ops n
  | .entity e, h => by
    have hnode : e.node? m = e.node? n :=
      Entity.node?_congr fun v hv => h v (by subst hv; simp [Typeable.ofEntity?])
    simp only [outcome, hnode]
  | .compare left op right, h => by
    have hl := left.outcome_congr fun v hv => h v (by simp [hv])
    have hr := right.outcome_congr fun v hv => h v (by simp [hv])
    simp only [outcome, hl, hr]
  | .and left right, h => by
    have hl := left.outcome_congr fun v hv => h v (by simp [hv])
    have hr := right.outcome_congr fun v hv => h v (by simp [hv])
    simp only [outcome, hl, hr]
  | .or left right, h => by
    have hl := left.outcome_congr fun v hv => h v (by simp [hv])
    have hr := right.outcome_congr fun v hv => h v (by simp [hv])
    simp only [outcome, hl, hr]
  | .not inner, h => by simp only [outcome, inner.outcome_congr h]
  | .call function args, h => by
    rw [Expression.typeables_call] at h
    have hargs := Expression.outcomes_congr args h
    simp only [outcome, hargs]
    split
    · rename_i v hv
      have hmem : .var v ∈ args.flatMap Expression.typeables := by
        unfold boundVariable? at hv
        split at hv
        · cases hv
          simp [Typeable.ofEntity?]
        · cases hv
      rw [h v hmem]
    · rfl

theorem Expression.outcomes_congr :
    ∀ es : List Expression, (∀ v, .var v ∈ es.flatMap Expression.typeables → m v = n v) →
      Expression.outcomes ops m es = Expression.outcomes ops n es
  | [], _ => rfl
  | e :: es, h => by
    have hfirst := e.outcome_congr fun v hv => h v (by simp [hv])
    have hrest := Expression.outcomes_congr es fun v hv => h v
      (by rw [List.flatMap_cons]; exact List.mem_append_right _ hv)
    simp only [outcomes, hfirst, hrest]

end

end

theorem Expression.holds_restrict {ops : Operators} {m : Solution} {keep : Variable → Bool}
    {e : Expression} (h : ∀ v, .var v ∈ e.typeables → keep v = true) :
    e.Holds ops (m.restrict keep) ↔ e.Holds ops m := by
  have hsame : e.outcome ops (m.restrict keep) = e.outcome ops m :=
    e.outcome_congr fun v hv => by simp [Solution.restrict, h v hv]
  rw [Holds, hsame, Holds]

/-! ## Statements that match together -/

theorem Solutions.join_unit (as : Solutions) : as.join .unit = as := by
  rw [join_comm, unit_join]

theorem Solutions.join_assoc (as bs cs : Solutions) :
    (as.join bs).join cs = as.join (bs.join cs) := by
  funext m
  apply propext
  constructor
  · rintro ⟨_, c, ⟨a, b, ha, hb, hab, rfl⟩, hc, habc, rfl⟩
    obtain ⟨hac, hbc⟩ := (Solution.compatible_merge hab).1 habc
    refine ⟨a, b.merge c, ha, ⟨b, c, hb, hc, hbc, rfl⟩, ?_, Solution.merge_assoc a b c⟩
    exact ((Solution.compatible_merge hbc).2 ⟨hab.symm, hac.symm⟩).symm
  · rintro ⟨a, _, ha, ⟨b, c, hb, hc, hbc, rfl⟩, habc, rfl⟩
    obtain ⟨hba, hca⟩ := (Solution.compatible_merge hbc).1 habc.symm
    refine ⟨a.merge b, c, ⟨a, b, ha, hb, hba.symm, rfl⟩, hc, ?_, (Solution.merge_assoc a b c).symm⟩
    exact (Solution.compatible_merge hba.symm).2 ⟨hca.symm, hbc⟩

/-- Under the solution the statement is a triple of the graph. -/
def Statement.Matched (g : Graph) (m : Solution) (s : Statement) : Prop :=
  ∃ t ∈ g, s.subject.node? m = some t.subject ∧ s.predicate.node? m = some t.predicate ∧
    s.object.node? m = some t.object

theorem Statement.Matched.congr {g : Graph} {m n : Solution} {s : Statement}
    (h : ∀ v, s.mentions v = true → m v = n v) (hm : s.Matched g m) : s.Matched g n := by
  have hnode : ∀ e ∈ s.entities, e.node? m = e.node? n := by
    intro e he
    refine Entity.node?_congr fun v hv => h v ?_
    subst hv
    simpa [mentions] using he
  obtain ⟨t, ht, hsubject, hpredicate, hobject⟩ := hm
  rw [hnode _ (by simp [entities])] at hsubject hpredicate hobject
  exact ⟨t, ht, hsubject, hpredicate, hobject⟩

/-- The solutions over exactly the variables of the statements that match all of them. -/
def Graph.basic (g : Graph) (ss : List Statement) : Solutions := fun m =>
  (∀ v, (m v).isSome = ss.any (·.mentions v)) ∧ ∀ s ∈ ss, s.Matched g m

namespace Graph
variable (g : Graph)

theorem basic_nil : g.basic [] = .unit := by
  funext m
  apply propext
  constructor
  · rintro ⟨hnone, _⟩
    funext v
    simpa [Solution.empty] using hnone v
  · rintro rfl
    exact ⟨fun _ => rfl, by simp⟩

theorem basic_singleton (s : Statement) : g.basic [s] = s.solutions g := by
  funext m
  simp [basic, Statement.solutions, Statement.Matched]

/-- Statements match together with others where both match. -/
theorem basic_append (ss ss' : List Statement) :
    g.basic (ss ++ ss') = (g.basic ss).join (g.basic ss') := by
  funext m
  apply propext
  constructor
  · rintro ⟨hdomain, hmatched⟩
    -- The two parts are the solution itself, over the variables of either side.
    have hpart : ∀ part : List Statement, part ⊆ ss ++ ss' →
        g.basic part (m.restrict fun v => part.any (·.mentions v)) := by
      intro part hsub
      refine ⟨fun v => ?_, fun s hs => (hmatched s (hsub hs)).congr fun v hv => ?_⟩
      · rw [Solution.isSome_restrict, hdomain]
        cases hany : part.any (·.mentions v) with
        | false => rfl
        | true =>
          obtain ⟨s, hs, hv⟩ := List.any_eq_true.1 hany
          exact List.any_eq_true.2 ⟨s, hsub hs, hv⟩
      · have hany : part.any (·.mentions v) = true := List.any_eq_true.2 ⟨s, hs, hv⟩
        simp [Solution.restrict, hany]
    refine ⟨_, _, hpart ss (List.subset_append_left _ _), hpart ss' (List.subset_append_right _ _),
      ?_, ?_⟩
    · intro v a b ha hb
      exact Option.some.inj
        ((Solution.restrict_eq_some.1 ha).2.symm.trans (Solution.restrict_eq_some.1 hb).2)
    · refine (Solution.restrict_merge_restrict fun v hv => ?_).symm
      rw [hdomain, List.any_append] at hv
      exact hv
  · rintro ⟨a, b, ⟨hdomain, hss⟩, ⟨hdomain', hss'⟩, hc, rfl⟩
    refine ⟨fun v => by rw [Solution.isSome_merge, hdomain, hdomain', List.any_append], ?_⟩
    intro s hs
    rcases List.mem_append.1 hs with hs | hs
    · refine (hss s hs).congr fun v hv => ?_
      have hbound : (a v).isSome = true := (hdomain v).trans (List.any_eq_true.2 ⟨s, hs, hv⟩)
      obtain ⟨n, hn⟩ := Option.isSome_iff_exists.1 hbound
      rw [hn, a.merge_extends_left b v n hn]
    · refine (hss' s hs).congr fun v hv => ?_
      have hbound : (b v).isSome = true := (hdomain' v).trans (List.any_eq_true.2 ⟨s, hs, hv⟩)
      obtain ⟨n, hn⟩ := Option.isSome_iff_exists.1 hbound
      rw [hn, Solution.merge_extends_right hc v n hn]

end Graph

/-- **Statements in a row match together.** -/
theorem Group.matchFrom_statements (g : Graph) (ops : Operators) (ss : List Statement)
    (as : Solutions) :
    Group.matchFrom (g.reading ops) (ss.map .statement) as = as.join (g.basic ss) := by
  induction ss generalizing as with
  | nil => exact (g.basic_nil ▸ as.join_unit).symm
  | cons s ss ih =>
    rw [List.map_cons, Group.matchFrom, ih, ← List.singleton_append, g.basic_append,
      g.basic_singleton, ← Solutions.join_assoc]
    rfl

theorem Solutions.isSome_of_join {as bs : Solutions} {m : Solution} (h : as.join bs m)
    {v : Variable} (hv : (m v).isSome = true) :
    (∃ a, as a ∧ (a v).isSome = true) ∨ ∃ b, bs b ∧ (b v).isSome = true := by
  obtain ⟨a, b, ha, hb, _, rfl⟩ := h
  rw [Solution.isSome_merge, Bool.or_eq_true] at hv
  exact hv.imp (⟨a, ha, ·⟩) (⟨b, hb, ·⟩)

/-- A variable that a group gives a node stands in one of its statements. -/
theorem Group.mentions_of_matchFrom {graph : Graph} {ops : Operators} {g : Group} {as : Solutions}
    {m : Solution} (h : g.matchFrom (graph.reading ops) as m) {v : Variable}
    (hv : (m v).isSome = true) :
    (∃ a, as a ∧ (a v).isSome = true) ∨ ∃ t ∈ g.statements, t.mentions v = true := by
  -- A group inside starts with no nodes.
  have hinner : ∀ {g : Group} {b : Solution},
      (∀ {as : Solutions} {m : Solution}, g.matchFrom (graph.reading ops) as m →
        (m v).isSome = true →
          (∃ a, as a ∧ (a v).isSome = true) ∨ ∃ t ∈ g.statements, t.mentions v = true) →
      g.solutions (graph.reading ops) b → (b v).isSome = true →
        ∃ t ∈ g.statements, t.mentions v = true := by
    intro g b hall hb hv
    rcases hall hb.1 hv with ⟨_, rfl, hnone⟩ | ht
    · cases hnone
    · exact ht
  induction g using Group.by_patterns generalizing as m with
  | nil => exact .inl ⟨m, h, hv⟩
  | statement s ps ih =>
    rw [Group.statements_statement]
    rcases ih h hv with ⟨a, ha, hav⟩ | ⟨t, ht, htv⟩
    · rcases Solutions.isSome_of_join ha hav with hbefore | ⟨b, hb, hbv⟩
      · exact .inl hbefore
      · exact .inr ⟨s, List.mem_cons_self, (hb.1 v).symm.trans hbv⟩
    · exact .inr ⟨t, List.mem_cons_of_mem _ ht, htv⟩
  | optional g ps ihg ih =>
    rw [Group.statements_optional]
    rcases ih h hv with ⟨a, ha, hav⟩ | ⟨t, ht, htv⟩
    · rcases ha with ha | ⟨ha, _⟩
      · rcases Solutions.isSome_of_join ha hav with hbefore | ⟨b, hb, hbv⟩
        · exact .inl hbefore
        · obtain ⟨t, ht, htv⟩ := hinner ihg hb hbv
          exact .inr ⟨t, List.mem_append_left _ ht, htv⟩
      · exact .inl ⟨a, ha, hav⟩
    · exact .inr ⟨t, List.mem_append_right _ ht, htv⟩
  | union gs ps ihg ih =>
    rw [Group.statements_union]
    rcases ih h hv with ⟨a, ha, hav⟩ | ⟨t, ht, htv⟩
    · rw [Pattern.matchFrom_union] at ha
      rcases Solutions.isSome_of_join ha hav with hbefore | ⟨b, ⟨g, hg, hb⟩, hbv⟩
      · exact .inl hbefore
      · obtain ⟨t, ht, htv⟩ := hinner (ihg g hg) hb hbv
        exact .inr ⟨t, List.mem_append_left _ (List.mem_flatMap.2 ⟨g, hg, ht⟩), htv⟩
    · exact .inr ⟨t, List.mem_append_right _ ht, htv⟩
  | filter e ps ih =>
    rw [Group.statements_filter]
    exact ih h hv
  | minus g ps ihg ih =>
    rw [Group.statements_minus]
    rcases ih h hv with ⟨a, ⟨ha, _⟩, hav⟩ | ⟨t, ht, htv⟩
    · exact .inl ⟨a, ha, hav⟩
    · exact .inr ⟨t, List.mem_append_right _ ht, htv⟩

end OntoQuery
