import OntoQuery.Proofs.Alternatives

/-!
# The listing of types

A map lists its types in the order in which they were found. Inference looks entities up, and it
goes through the list only when branches are merged. So from the same types, listed in another
order, every scope comes to the same types, runs out of rounds alike, or fails in both cases
(`Typist.inferScope_extensional`).
-/

namespace OntoQuery

/-- The types are the same, and so is whether some scope has run out of rounds. -/
structure Progress.Reordered (p p' : Progress) : Prop where
  types : p.types.Reordered p'.types
  exhausted : p.exhausted = p'.exhausted

/-- From the same types the step fails or comes to the same types, and it tells a change alike. -/
def Pass.Extensional (a : Pass) : Prop :=
  ∀ p p' : Progress, p.Reordered p' →
    Concord (fun made made' : Progress × Bool => made.1.Reordered made'.1 ∧ made.2 = made'.2) (a p)
      (a p')

/-- From the same types inference fails or comes to the same types. -/
def Inferrer.Extensional (a : Inferrer) : Prop :=
  ∀ p p' : Progress, p.Reordered p' → Concord Progress.Reordered (a p) (a p')

namespace Pass

theorem idle_extensional : idle.Extensional :=
  fun _ _ h => .ok ⟨h, rfl⟩

theorem Extensional.andThen {a b : Pass} (ha : a.Extensional) (hb : b.Extensional) :
    (a.andThen b).Extensional := by
  intro p p' h
  apply (ha p p' h).bind
  rintro ⟨made, changed⟩ ⟨made', changed'⟩ ⟨hmade, rfl⟩
  apply (hb made made' hmade).bind
  rintro ⟨last, changed'⟩ ⟨last', changed''⟩ ⟨hlast, rfl⟩
  exact .ok ⟨hlast, rfl⟩

theorem Extensional.all {as : List Pass} (h : ∀ a ∈ as, a.Extensional) :
    (Pass.all as).Extensional := by
  induction as with
  | nil => exact idle_extensional
  | cons a as ih =>
    exact (h a List.mem_cons_self).andThen (ih fun b hb => h b (List.mem_cons_of_mem _ hb))

theorem ofRule_extensional {r : Rule} (hr : r.Extensional) : (ofRule r).Extensional := by
  intro p p' h
  apply ((hr p.types p'.types h.types).mapError _ _).bind
  rintro ⟨made, changed⟩ ⟨made', changed'⟩ ⟨hmade, rfl⟩
  exact .ok ⟨⟨hmade, h.exhausted⟩, rfl⟩

theorem settle_extensional {r : Rule} (hr : r.Extensional) (rounds : Nat) :
    (settle r rounds).Extensional := by
  induction rounds with
  | zero => exact fun p p' h => .ok ⟨⟨h.types, rfl⟩, rfl⟩
  | succ rounds ih =>
    intro p p' h
    apply (ofRule_extensional hr p p' h).bind
    rintro ⟨made, changed⟩ ⟨made', changed'⟩ ⟨hmade, rfl⟩
    cases changed with
    | false => exact .ok ⟨hmade, rfl⟩
    | true =>
      apply (ih made made' hmade).bind
      rintro ⟨last, _⟩ ⟨last', _⟩ ⟨hlast, _⟩
      exact .ok ⟨hlast, rfl⟩

theorem Extensional.iterate {a : Pass} (ha : a.Extensional) (rounds : Nat) :
    Inferrer.Extensional (iterate a rounds) := by
  induction rounds with
  | zero => exact fun p p' h => .ok ⟨h.types, rfl⟩
  | succ rounds ih =>
    intro p p' h
    apply (ha p p' h).bind
    rintro ⟨made, changed⟩ ⟨made', changed'⟩ ⟨hmade, rfl⟩
    dsimp only at hmade ⊢
    rw [hmade.exhausted]
    split
    · exact ih made made' hmade
    · exact .ok hmade

end Pass

/-! ## Unions -/

namespace TypeMap

theorem mergeBranch_extensional (schema : Schema)
    {seed seed' merged merged' branch branch' : TypeMap} (hseed : seed.Same seed')
    (hmerged : merged.Reordered merged') (hbranch : branch.Reordered branch') :
    Concord Reordered (mergeBranch schema seed merged branch)
      (mergeBranch schema seed' merged' branch') := by
  have hbrings : ∀ e type, Brings seed branch e type ↔ Brings seed' branch' e type :=
    fun e type => by rw [Brings, Brings, hseed e, hbranch.same e]
  cases hrun : mergeBranch schema seed merged branch with
  | ok made =>
    obtain ⟨made', hrun'⟩ :=
      mergeBranch_of_same schema hbranch.nodup hbranch.nodup' hmerged.same hbrings hrun
    rw [hrun']
    refine .ok ⟨nodup_mergeBranch hmerged.nodup hrun, nodup_mergeBranch hmerged.nodup' hrun', ?_⟩
    intro e
    refine Option.ext fun type => ?_
    rw [find?_mergeBranch hbranch.nodup hrun, find?_mergeBranch hbranch.nodup' hrun',
      hmerged.same e, hbrings]
  | error fault =>
    cases hrun' : mergeBranch schema seed' merged' branch' with
    | error fault' => exact .error fault fault'
    | ok made' =>
      obtain ⟨_, hrun''⟩ := mergeBranch_of_same schema hbranch.nodup' hbranch.nodup
        hmerged.symm.same (fun e type => (hbrings e type).symm) hrun'
      cases hrun.symm.trans hrun''

theorem gather_extensional (schema : Schema) {seed seed' merged merged' : TypeMap}
    (hseed : seed.Reordered seed') (hmerged : merged.Reordered merged') {infers : List Inferrer}
    (h : ∀ infer ∈ infers, Inferrer.Extensional infer) (exhausted : Bool) :
    Concord (fun made made' : TypeMap × Bool => made.1.Reordered made'.1 ∧ made.2 = made'.2)
      (gather schema seed infers merged exhausted)
        (gather schema seed' infers merged' exhausted) := by
  induction infers generalizing merged merged' exhausted with
  | nil => exact .ok ⟨hmerged, rfl⟩
  | cons infer infers ih =>
    apply (h infer List.mem_cons_self ⟨seed, exhausted⟩ ⟨seed', exhausted⟩ ⟨hseed, rfl⟩).bind
    intro p p' hp
    apply ((mergeBranch_extensional schema hseed.same hmerged hp.types).mapError _ _).bind
    intro made made' hmade
    rw [hp.exhausted]
    exact ih hmade (fun infer' hmem => h infer' (List.mem_cons_of_mem _ hmem)) p'.exhausted

end TypeMap

theorem Pass.union_extensional (schema : Schema) {infers : List Inferrer}
    (h : ∀ infer ∈ infers, Inferrer.Extensional infer) : (union schema infers).Extensional := by
  rintro ⟨types, exhausted⟩ ⟨types', _⟩ ⟨htypes, rfl⟩
  have hempty : TypeMap.Reordered .empty .empty := ⟨List.nodup_nil, List.nodup_nil, fun _ => rfl⟩
  apply (TypeMap.gather_extensional schema htypes hempty h exhausted).bind
  rintro ⟨merged, exhausted'⟩ ⟨merged', _⟩ ⟨hmerged, rfl⟩
  obtain ⟨habsorbed, hchanged⟩ := htypes.absorb hmerged.same
  exact .ok ⟨⟨habsorbed, rfl⟩, hchanged⟩

/-! ## Scopes -/

namespace Typist
variable (t : Typist) (rounds : Nat)

theorem round_extensional (statements : List Statement) (filters : List Expression) {unions : Pass}
    (hunions : unions.Extensional) : (t.round rounds statements filters unions).Extensional := by
  intro p p' h
  have hsettle := Pass.settle_extensional (t.rules_extensional statements filters) rounds
  apply (hsettle.andThen hunions p p' h).bind
  rintro ⟨made, changed⟩ ⟨made', changed'⟩ ⟨hmade, rfl⟩
  cases changed with
  | true => exact .ok ⟨hmade, rfl⟩
  | false => exact Pass.ofRule_extensional (t.classes_extensional statements) made made' hmade

theorem unions_extensional {unions : List (List Scope)}
    (h : ∀ branches ∈ unions, ∀ branch ∈ branches,
      Inferrer.Extensional (t.inferScope rounds branch)) :
    (Pass.all (unions.map fun branches =>
      .union t.schema (branches.map (t.inferScope rounds)))).Extensional := by
  apply Pass.Extensional.all
  intro a ha
  obtain ⟨branches, hbranches, rfl⟩ := List.mem_map.1 ha
  apply Pass.union_extensional
  intro infer hinfer
  obtain ⟨branch, hbranch, rfl⟩ := List.mem_map.1 hinfer
  exact h branches hbranches branch hbranch

/-- **How a scope is inferred does not depend on the order in which types are listed.** -/
theorem inferScope_extensional (scope : Scope) :
    Inferrer.Extensional (t.inferScope rounds scope) := by
  induction scope using Scope.by_unions with
  | mk statements filters unions ih =>
    rw [inferScope_mk]
    exact (t.round_extensional rounds statements filters (t.unions_extensional rounds ih)).iterate
      rounds

end Typist

end OntoQuery
