import OntoQuery.Proofs.Demands
import OntoQuery.Proofs.Group
import OntoQuery.Proofs.Scopes

/-!
# Patterns in another order

The patterns of a group mean the same in any order. `Group.Permuted` relates groups whose patterns
stand in another order, in the group itself or in groups inside it, where it is left open which
neighbours may change places. What type inference sees of a group is its scope, and a scope does not
know in which order statements and filters stood among unions: if of two neighbours that change
places at most one has a union in it, the statements and the filters of the scope are permuted and
its unions stay in order (`Scope.rearranged_of_permuted`).
-/

namespace OntoQuery

/-- The second group has the patterns of the first in another order, in the group itself or in
groups inside it. Neighbours change places where `free` allows it. -/
inductive Group.Permuted (free : Pattern → Pattern → Prop) : Group → Group → Prop where
  | refl (g : Group) : Permuted free g g
  | swap {p q : Pattern} (g : Group) : free p q → Permuted free (p :: q :: g) (q :: p :: g)
  | cons (p : Pattern) {g g' : Group} : Permuted free g g' → Permuted free (p :: g) (p :: g')
  | optional {g g' : Group} (ps : Group) :
    Permuted free g g' → Permuted free (.optional g :: ps) (.optional g' :: ps)
  | union (before after : List Group) {g g' : Group} (ps : Group) : Permuted free g g' →
    Permuted free (.union (before ++ g :: after) :: ps) (.union (before ++ g' :: after) :: ps)
  | minus {g g' : Group} (ps : Group) :
    Permuted free g g' → Permuted free (.minus g :: ps) (.minus g' :: ps)
  | trans {g g' g'' : Group} : Permuted free g g' → Permuted free g' g'' → Permuted free g g''

/-- At most one of the patterns has a union of the scope in it. -/
def Pattern.Apart (p q : Pattern) : Prop :=
  (Scope.ofPattern p).unions = [] ∨ (Scope.ofPattern q).unions = []

/-- A group has the same statements in another order. -/
theorem Group.Permuted.statements_perm {free : Pattern → Pattern → Prop} {g g' : Group}
    (h : g.Permuted free g') : g.statements.Perm g'.statements := by
  have cons : ∀ (p : Pattern) (ps : Group), Group.statements (p :: ps) =
      Group.statements [p] ++ Group.statements ps := fun p ps => Group.statements_append [p] ps
  induction h with
  | refl g => exact .refl _
  | @swap p q g _ =>
    rw [cons p, cons q, cons q (p :: g), cons p g, ← List.append_assoc, ← List.append_assoc]
    exact List.perm_append_comm.append_right _
  | @cons p g g' _ ih =>
    rw [cons p g, cons p g']
    exact ih.append_left _
  | optional ps _ ih =>
    rw [Group.statements_optional, Group.statements_optional]
    exact ih.append_right _
  | union before after ps _ ih =>
    rw [Group.statements_union, Group.statements_union, List.flatMap_append, List.flatMap_append,
      List.flatMap_cons, List.flatMap_cons]
    exact ((ih.append_right _).append_left _).append_right _
  | minus ps _ ih =>
    rw [Group.statements_minus, Group.statements_minus]
    exact ih.append_right _
  | trans _ _ ih ih' => exact ih.trans ih'

/-! ## Scopes -/

/-- The scopes have the same statements and filters in another order, and the same unions in order,
up to the order inside their branches. -/
inductive Scope.Rearranged : Scope → Scope → Prop where
  | mk {statements statements' : List Statement} {filters filters' : List Expression}
      {unions unions' : List (List Scope)} :
    statements.Perm statements' → filters.Perm filters' →
      List.Forall₂ (List.Forall₂ Rearranged) unions unions' →
      Rearranged (.mk statements filters unions) (.mk statements' filters' unions')

theorem forall₂_trans {α : Type} {R : α → α → Prop} {as bs cs : List α}
    (htrans : ∀ a ∈ as, ∀ b c, R a b → R b c → R a c) (h : List.Forall₂ R as bs)
    (h' : List.Forall₂ R bs cs) : List.Forall₂ R as cs := by
  induction h generalizing cs with
  | nil =>
    cases h'
    exact .nil
  | cons hab _ ih =>
    cases h' with
    | cons hbc hrest =>
      refine .cons (htrans _ List.mem_cons_self _ _ hab hbc) (ih ?_ hrest)
      exact fun a ha => htrans a (List.mem_cons_of_mem _ ha)

namespace Scope

theorem Rearranged.refl (scope : Scope) : scope.Rearranged scope := by
  induction scope using Scope.by_unions with
  | mk statements filters unions ih =>
    refine .mk (.refl _) (.refl _) (List.forall₂_same.2 fun branches hbranches => ?_)
    exact List.forall₂_same.2 (ih branches hbranches)

theorem Rearranged.trans {a b c : Scope} (h : a.Rearranged b) (h' : b.Rearranged c) :
    a.Rearranged c := by
  induction a using Scope.by_unions generalizing b c with
  | mk statements filters unions ih =>
    obtain ⟨hs, he, hu⟩ := h
    obtain ⟨hs', he', hu'⟩ := h'
    refine .mk (hs.trans hs') (he.trans he') ?_
    refine forall₂_trans (fun branches hbranches _ _ hab hbc => ?_) hu hu'
    exact forall₂_trans (fun branch hbranch _ _ => ih branches hbranches branch hbranch) hab hbc

theorem Rearranged.append {a a' b b' : Scope} (ha : a.Rearranged a') (hb : b.Rearranged b') :
    (a ++ b).Rearranged (a' ++ b') := by
  obtain ⟨hs, he, hu⟩ := ha
  obtain ⟨hs', he', hu'⟩ := hb
  exact .mk (hs.append hs') (he.append he') (List.rel_append hu hu')

theorem append_assoc (a b c : Scope) : a ++ b ++ c = a ++ (b ++ c) := by
  obtain ⟨s, e, u⟩ := a
  obtain ⟨s', e', u'⟩ := b
  obtain ⟨s'', e'', u''⟩ := c
  change mk (s ++ s' ++ s'') (e ++ e' ++ e'') (u ++ u' ++ u'') =
    mk (s ++ (s' ++ s'')) (e ++ (e' ++ e'')) (u ++ (u' ++ u''))
  simp only [List.append_assoc]

/-- Two scopes of which at most one has unions can be put together in either order. -/
theorem rearranged_comm {a b : Scope} (h : a.unions = [] ∨ b.unions = []) :
    (a ++ b).Rearranged (b ++ a) := by
  obtain ⟨s, e, u⟩ := a
  obtain ⟨s', e', u'⟩ := b
  have hunions : u ++ u' = u' ++ u := by
    rcases h with h | h
    · change u = [] at h
      simp [h]
    · change u' = [] at h
      simp [h]
  have hsame : ∀ us : List (List Scope), List.Forall₂ (List.Forall₂ Rearranged) us us :=
    fun us => List.forall₂_same.2 fun _ _ => List.forall₂_same.2 fun branch _ => .refl branch
  exact .mk List.perm_append_comm List.perm_append_comm (hunions ▸ hsame _)

/-- **The scope of a group whose patterns stand in another order is rearranged**, if of two
neighbours that changed places at most one has unions in it. -/
theorem rearranged_of_permuted {g g' : Group} (h : g.Permuted Pattern.Apart g') :
    (ofGroup g).Rearranged (ofGroup g') := by
  induction h with
  | refl g => exact .refl _
  | @swap p q g hapart =>
    simp only [ofGroup, ← append_assoc]
    exact (rearranged_comm hapart).append (.refl _)
  | cons p _ ih => exact (Rearranged.refl _).append ih
  | optional ps _ ih => exact ih.append (.refl _)
  | union before after ps _ ih =>
    refine Rearranged.append (.mk (.refl _) (.refl _) (.cons ?_ .nil)) (.refl _)
    simp only [ofGroups_eq, List.map_append, List.map_cons]
    have hsame : ∀ gs : List Group, List.Forall₂ Rearranged (gs.map ofGroup) (gs.map ofGroup) :=
      fun gs => List.forall₂_same.2 fun branch _ => .refl branch
    exact List.rel_append (hsame before) (.cons ih (hsame after))
  | minus ps _ ih => exact ih.append (.refl _)
  | trans _ _ ih ih' => exact ih.trans ih'

end Scope

/-! ## The demands of a scope -/

mutual

/-- What the statements and filters of a scope demand, at any depth. -/
def Scope.demands (t : Typist) : Scope → List Demand
  | .mk statements filters unions => t.demands statements filters ++ Scope.unionDemands t unions

def Scope.unionDemands (t : Typist) : List (List Scope) → List Demand
  | [] => []
  | branches :: unions => Scope.branchDemands t branches ++ Scope.unionDemands t unions

def Scope.branchDemands (t : Typist) : List Scope → List Demand
  | [] => []
  | branch :: branches => branch.demands t ++ Scope.branchDemands t branches

end

namespace Scope
variable (t : Typist)

theorem branchDemands_eq (branches : List Scope) :
    branchDemands t branches = branches.flatMap (demands t) := by
  induction branches with
  | nil => rfl
  | cons branch branches ih => rw [branchDemands, ih, List.flatMap_cons]

theorem unionDemands_eq (unions : List (List Scope)) :
    unionDemands t unions = unions.flatMap (·.flatMap (demands t)) := by
  induction unions with
  | nil => rfl
  | cons branches unions ih => rw [unionDemands, ih, branchDemands_eq, List.flatMap_cons]

theorem demands_mk (statements : List Statement) (filters : List Expression)
    (unions : List (List Scope)) :
    (mk statements filters unions).demands t =
      t.demands statements filters ++ unions.flatMap (·.flatMap (demands t)) := by
  rw [demands, unionDemands_eq]

theorem mem_demands_append {a b : Scope} {d : Demand} :
    d ∈ (a ++ b).demands t ↔ d ∈ a.demands t ∨ d ∈ b.demands t := by
  obtain ⟨s, e, u⟩ := a
  obtain ⟨s', e', u'⟩ := b
  change d ∈ (mk (s ++ s') (e ++ e') (u ++ u')).demands t ↔ _
  simp only [demands_mk, Typist.demands, List.flatMap_append, List.mem_append]
  tauto

/-- What the scope of a group demands is what its statements and its filters demand. -/
theorem demands_ofGroup {g : Group} {d : Demand} (h : d ∈ (ofGroup g).demands t) :
    (∃ s ∈ g.statements, d ∈ t.statementDemands s) ∨ ∃ e, d ∈ t.filterDemands e := by
  have widen : ∀ {ss ss' : List Statement}, ss ⊆ ss' → (∃ s ∈ ss, d ∈ t.statementDemands s) →
      ∃ s ∈ ss', d ∈ t.statementDemands s := by
    rintro ss ss' hsubset ⟨s, hs, hd⟩
    exact ⟨s, hsubset hs, hd⟩
  induction g using Group.by_patterns with
  | nil => simp [ofGroup, empty, demands_mk, Typist.demands] at h
  | statement s ps ih =>
    rw [ofGroup, mem_demands_append, ofPattern, demands_mk] at h
    rcases h with h | h
    · exact .inl ⟨s, by simp, by simpa [Typist.demands] using h⟩
    · exact (ih h).imp_left (widen (by simp))
  | optional g ps ihg ih | minus g ps ihg ih =>
    rw [ofGroup, mem_demands_append, ofPattern] at h
    rcases h with h | h
    · exact (ihg h).imp_left (widen (by simp))
    · exact (ih h).imp_left (widen (by simp))
  | union gs ps ihg ih =>
    rw [ofGroup, mem_demands_append, ofPattern, demands_mk, ofGroups_eq] at h
    rw [Group.statements_union]
    rcases h with h | h
    · simp only [Typist.demands, List.flatMap_nil, List.nil_append, List.flatMap_cons,
        List.append_nil, List.flatMap_map, List.mem_flatMap] at h
      obtain ⟨g, hg, hd⟩ := h
      refine (ihg g hg hd).imp_left (widen ?_)
      exact fun s hs => List.mem_append_left _ (List.mem_flatMap.2 ⟨g, hg, hs⟩)
    · exact (ih h).imp_left (widen (List.subset_append_right _ _))
  | filter e ps ih =>
    rw [ofGroup, mem_demands_append, ofPattern, demands_mk] at h
    rcases h with h | h
    · exact .inr ⟨e, by simpa [Typist.demands] using h⟩
    · exact (ih h).imp_left (widen (by simp))

end Scope

end OntoQuery
