import OntoQuery.Proofs.Rearrangement
import OntoQuery.Proofs.Settling

/-!
# Runs side by side

Two runs of type inference that start from the same types are compared step by step. They agree if
both fail or both find the same types (`Concord`). Demands settle alike in any order
(`Pass.settle_agree`), the branches of a union bring the same, and merging depends on nothing but
what is brought (`TypeMap.mergeBranch_agree`). So rearranged scopes are inferred alike
(`Typist.inferScope_agree`).
-/

namespace OntoQuery

/-! ## Runs that agree -/

/-- Both computations fail, or both give results that are related. -/
inductive Concord {ε ε' α β : Type} (R : α → β → Prop) : Except ε α → Except ε' β → Prop where
  | ok {a : α} {b : β} : R a b → Concord R (.ok a) (.ok b)
  | error (fault : ε) (fault' : ε') : Concord R (.error fault) (.error fault')

namespace Concord
variable {ε ε' α β γ δ : Type} {R : α → β → Prop} {S : γ → δ → Prop} {x : Except ε α}
  {y : Except ε' β}

theorem bind {f : α → Except ε γ} {g : β → Except ε' δ} (h : Concord R x y)
    (hfg : ∀ a b, R a b → Concord S (f a) (g b)) : Concord S (x >>= f) (y >>= g) := by
  cases h with
  | ok hab => exact hfg _ _ hab
  | error fault fault' => exact .error fault fault'

theorem imp {R' : α → β → Prop} (h : Concord R x y) (himp : ∀ a b, R a b → R' a b) :
    Concord R' x y := by
  cases h with
  | ok hab => exact .ok (himp _ _ hab)
  | error fault fault' => exact .error fault fault'

theorem mapError {ε₂ ε₂' : Type} (h : Concord R x y) (f : ε → ε₂) (g : ε' → ε₂') :
    Concord R (x.mapError f) (y.mapError g) := by
  cases h with
  | ok hab => exact .ok hab
  | error fault fault' => exact .error (f fault) (g fault')

theorem and_ends {x : Except Halt α} {good : α → Prop} (h : Concord R x y) (hends : Ends good x) :
    Concord (fun a b => R a b ∧ good a) x y := by
  cases h with
  | ok hab => exact .ok ⟨hab, hends⟩
  | error fault fault' => exact .error fault fault'

end Concord

/-- The maps have the same types, of the given entities and among the given types. -/
structure TypeMap.Twins (known : List Iri) (entities : List Typeable)
    (types types' : TypeMap) : Prop where
  tidy : types.Tidy known
  tidy' : types'.Tidy known
  keys : types.keys ⊆ entities
  keys' : types'.keys ⊆ entities
  same : types.Same types'

theorem TypeMap.empty_twins (known : List Iri) (entities : List Typeable) :
    Twins known entities .empty .empty :=
  ⟨empty_tidy known, empty_tidy known, List.nil_subset _, List.nil_subset _, fun _ => rfl⟩

/-- Neither run has run out of rounds, and they have found the same types. -/
structure Progress.Twins (known : List Iri) (entities : List Typeable)
    (p p' : Progress) : Prop where
  calm : p.exhausted = false
  calm' : p'.exhausted = false
  types : p.types.Twins known entities p'.types

/-- From types that are alike, both steps fail or come to types that are alike. -/
def Pass.Agree (known : List Iri) (entities : List Typeable) (a b : Pass) : Prop :=
  ∀ p p', p.Twins known entities p' → Concord (fun made made' : Progress × Bool =>
    made.1.Twins known entities made'.1 ∧ made.2 = made'.2) (a p) (b p')

/-- From types that are alike, both ways of inference fail or come to types that are alike. -/
def Inferrer.Agree (known : List Iri) (entities : List Typeable) (a b : Inferrer) : Prop :=
  ∀ p p', p.Twins known entities p' → Concord (Progress.Twins known entities) (a p) (b p')

/-- Whether anything changed can be seen from the types. -/
theorem TypeMap.changed_eq {o : Ontology} {entities : List Typeable}
    {types types' made made' : TypeMap} {changed changed' : Bool} (hstart : types.Same types')
    (hend : made.Same made') (hdown : Descends o entities types made changed)
    (hdown' : Descends o entities types' made' changed') (hstill : changed = false → made = types)
    (hstill' : changed' = false → made' = types') : changed = changed' := by
  have hslack := slack_congr o entities hstart
  have hslack' := slack_congr o entities hend
  have hless := hdown.slack
  have hless' := hdown'.slack
  cases changed with
  | false =>
    cases changed' with
    | false => rfl
    | true =>
      rw [hstill rfl] at hslack'
      simp only [Bool.toNat_true] at hless'
      omega
  | true =>
    cases changed' with
    | true => rfl
    | false =>
      rw [hstill' rfl] at hslack'
      simp only [Bool.toNat_true] at hless
      omega

namespace Pass
variable {known : List Iri} {entities : List Typeable}

theorem idle_agree : Agree known entities idle idle :=
  fun _ _ h => .ok ⟨h, rfl⟩

theorem Agree.andThen {a a' b b' : Pass} (ha : Agree known entities a a')
    (hb : Agree known entities b b') : Agree known entities (a.andThen b) (a'.andThen b') := by
  intro p p' h
  refine (ha p p' h).bind fun made made' ⟨hmade, hchanged⟩ => ?_
  refine (hb _ _ hmade).bind fun last last' ⟨hlast, hchanged'⟩ => ?_
  exact .ok ⟨hlast, by rw [hchanged, hchanged']⟩

theorem Agree.all {as as' : List Pass} (h : List.Forall₂ (Agree known entities) as as') :
    Agree known entities (Pass.all as) (Pass.all as') := by
  induction h with
  | nil => exact idle_agree
  | cons ha _ ih => exact ha.andThen ih

/-- **Demands settle alike in any order.** -/
theorem settle_agree {t : Typist} (horder : t.ontology.Orderly known) {ds ds' : List Demand}
    (hmem : ∀ d, d ∈ ds ↔ d ∈ ds') (hds : ∀ d ∈ ds, d.Among known)
    (hdown : (t.imposeAll ds).Descends t.ontology entities)
    (hdown' : (t.imposeAll ds').Descends t.ontology entities) {rounds : Nat}
    (hrounds : entities.length * (t.ontology.classes.length + 1) < rounds) :
    Agree known entities (settle (t.imposeAll ds) rounds) (settle (t.imposeAll ds') rounds) := by
  intro p p' h
  have hds' : ∀ d ∈ ds', d.Among known := fun d hd => hds d ((hmem d).2 hd)
  have hends := settle_ends hdown h.calm h.types.keys
    ((p.types.slack_le t.ontology entities).trans_lt hrounds)
  have hends' := settle_ends hdown' h.calm' h.types.keys'
    ((p'.types.slack_le t.ontology entities).trans_lt hrounds)
  have forward : ∀ {made}, settle (t.imposeAll ds) rounds p = .ok made → made.1.exhausted = false →
      ∃ made', settle (t.imposeAll ds') rounds p' = .ok made' ∧
        made'.1.types.Above t.ontology made.1.types :=
    settle_above horder (fun d hd => (hmem d).2 hd) hds h.types.tidy h.types.tidy' h.types.same
  have backward : ∀ {made'}, settle (t.imposeAll ds') rounds p' = .ok made' →
      made'.1.exhausted = false → ∃ made, settle (t.imposeAll ds) rounds p = .ok made ∧
        made.1.types.Above t.ontology made'.1.types :=
    settle_above horder (fun d hd => (hmem d).1 hd) hds' h.types.tidy' h.types.tidy
      fun e => (h.types.same e).symm
  cases hrun : settle (t.imposeAll ds) rounds p with
  | ok made =>
    rw [hrun] at hends
    obtain ⟨hout, hdescends⟩ := hends
    obtain ⟨made', hrun', habove'⟩ := forward hrun hout
    rw [hrun'] at hends' ⊢
    obtain ⟨hout', hdescends'⟩ := hends'
    obtain ⟨_, hrun'', habove⟩ := backward hrun' hout'
    cases hrun.symm.trans hrun''
    have htidy := (settle_lowers horder (Typist.imposeAll_lowers horder hds) h.types.tidy hrun).1
    have htidy' :=
      (settle_lowers horder (Typist.imposeAll_lowers horder hds') h.types.tidy' hrun').1
    have hsame := habove.antisymm horder htidy htidy' habove'
    refine .ok ⟨⟨hout, hout', htidy, htidy', hdescends.keys, hdescends'.keys, hsame⟩, ?_⟩
    obtain ⟨made, changed⟩ := made
    obtain ⟨made', changed'⟩ := made'
    refine TypeMap.changed_eq h.types.same hsame hdescends hdescends' ?_ ?_
    · rintro rfl
      exact (settle_faithful (t.imposeAll_refines ds) rounds).unchanged hrun
    · rintro rfl
      exact (settle_faithful (t.imposeAll_refines ds') rounds).unchanged hrun'
  | error halt =>
    cases hrun' : settle (t.imposeAll ds') rounds p' with
    | error halt' => exact .error halt halt'
    | ok made' =>
      rw [hrun'] at hends'
      obtain ⟨made, hrun'', _⟩ := backward hrun' hends'.1
      cases hrun.symm.trans hrun''

/-- Repetitions of steps that agree go on and end together. -/
theorem Agree.iterate {a b : Pass} {o : Ontology} (h : Agree known entities a b)
    (hconverges : a.Converges o entities) {rounds : Nat}
    (hrounds : entities.length * (o.classes.length + 1) < rounds) :
    Inferrer.Agree known entities (iterate a rounds) (iterate b rounds) := by
  intro p p' hp
  have hslack := (p.types.slack_le o entities).trans_lt hrounds
  clear hrounds
  induction rounds generalizing p p' with
  | zero => omega
  | succ rounds ih =>
    refine ((h p p' hp).and_ends (hconverges p hp.calm hp.types.keys)).bind ?_
    rintro ⟨made, changed⟩ ⟨made', changed'⟩ ⟨⟨hmade, rfl⟩, _, hdown⟩
    dsimp only at hmade hdown ⊢
    rw [hmade.calm, hmade.calm']
    cases changed with
    | false => exact .ok hmade
    | true =>
      have hless : made.types.slack o entities + 1 ≤ p.types.slack o entities := hdown.slack
      exact ih made made' hmade (by omega)

end Pass

/-! ## Unions -/

namespace TypeMap
variable {known : List Iri} {entities : List Typeable}

/-- The branch gives the entity a type that it does not have in the seed. -/
def Brings (seed branch : TypeMap) (e : Typeable) (type : Iri) : Prop :=
  branch.find? e = some type ∧ seed.find? e ≠ some type

theorem brings_cons {seed : TypeMap} {e : Typeable} {type : Iri} {entries : List (Typeable × Iri)}
    (hnot : e ∉ entries.map Prod.fst) {e' : Typeable} {type' : Iri} :
    Brings seed ⟨(e, type) :: entries⟩ e' type' ↔
      (e' = e ∧ type' = type ∧ seed.find? e ≠ some type) ∨ Brings seed ⟨entries⟩ e' type' := by
  have hnone : ∀ type', entries.lookup e ≠ some type' := by
    intro type' h
    exact hnot (List.mem_map.2 ⟨_, @mem_entries_of_find? ⟨entries⟩ e type' h, rfl⟩)
  unfold Brings OrderedMap.find?
  dsimp only
  rw [List.lookup_cons]
  by_cases he : e' = e
  · subst he
    simp only [BEq.rfl, Option.some.injEq, hnone, false_and, or_false, true_and]
    exact and_congr_left' eq_comm |>.trans (and_congr_right fun h => h ▸ Iff.rfl)
  · rw [beq_eq_false_iff_ne.2 he]
    simp [he]

/-- After a branch is merged, the types are those that were there and those that it brings. -/
theorem find?_mergeBranch {schema : Schema} {seed merged branch made : TypeMap}
    (hbranch : branch.keys.Nodup) (h : mergeBranch schema seed merged branch = .ok made)
    (e : Typeable) (type : Iri) :
    made.find? e = some type ↔ merged.find? e = some type ∨ Brings seed branch e type := by
  obtain ⟨entries⟩ := branch
  induction entries generalizing merged with
  | nil =>
    cases h
    simp [Brings, OrderedMap.find?]
  | cons entry entries ih =>
    obtain ⟨e', type'⟩ := entry
    obtain ⟨hnot, hrest⟩ := List.nodup_cons.1 hbranch
    obtain ⟨next, h, hnext⟩ := mergeBranch_cons_ok.1 h
    have hstep : next.find? e = some type ↔
        merged.find? e = some type ∨ (e = e' ∧ type = type' ∧ seed.find? e' ≠ some type') := by
      rcases hnext with ⟨rfl, hseed | hmerged⟩ | ⟨rfl, hseed, hnone⟩
      · simp [hseed]
      · refine ⟨.inl, fun hor => hor.elim id ?_⟩
        rintro ⟨rfl, rfl, _⟩
        exact hmerged
      · rw [OrderedMap.find?_insert]
        split
        · rename_i heq
          simp [heq, hnone, hseed, eq_comm]
        · rename_i hne
          simp [hne]
    rw [ih hrest h, hstep, brings_cons hnot, or_assoc]

/-- A branch can be merged if it brings no type of an entity that has another. -/
theorem mergeBranch_succeeds (schema : Schema) {seed merged branch : TypeMap}
    (hbranch : branch.keys.Nodup)
    (h : ∀ e type, Brings seed branch e type → ∀ previous, merged.find? e = some previous →
      previous = type) : ∃ made, mergeBranch schema seed merged branch = .ok made := by
  obtain ⟨entries⟩ := branch
  induction entries generalizing merged with
  | nil => exact ⟨merged, mergeBranch_nil⟩
  | cons entry entries ih =>
    obtain ⟨e, type⟩ := entry
    obtain ⟨hnot, hrest⟩ := List.nodup_cons.1 hbranch
    simp only [brings_cons hnot] at h
    have hlater : ∀ e' type', Brings seed ⟨entries⟩ e' type' → ∀ previous,
        merged.find? e' = some previous → previous = type' :=
          fun e' type' hb => h e' type' (.inr hb)
    by_cases hhere : seed.find? e = some type ∨ merged.find? e = some type
    · obtain ⟨made, hmade⟩ := ih hrest hlater
      exact ⟨made, mergeBranch_cons_ok.2 ⟨merged, hmade, .inl ⟨rfl, hhere⟩⟩⟩
    · obtain ⟨hseed, hmerged⟩ := not_or.1 hhere
      have hnone : merged.find? e = none := by
        cases hprevious : merged.find? e with
        | none => rfl
        | some previous =>
          cases h e type (.inl ⟨rfl, rfl, hseed⟩) previous hprevious
          exact absurd hprevious hmerged
      have hadded : ∀ e' type', Brings seed ⟨entries⟩ e' type' → ∀ previous,
          (merged.insert e type).find? e' = some previous → previous = type' := by
        intro e' type' hb previous hprevious
        have hne : e' ≠ e := by
          rintro rfl
          exact hnot (List.mem_map.2 ⟨_, mem_entries_of_find? hb.1, rfl⟩)
        rw [OrderedMap.find?_insert, if_neg hne] at hprevious
        exact hlater e' type' hb previous hprevious
      obtain ⟨made, hmade⟩ := ih hrest hadded
      exact ⟨made, mergeBranch_cons_ok.2 ⟨_, hmade, .inr ⟨rfl, hseed, hnone⟩⟩⟩

/-- What was merged shows that no type stands against another, so what brings the same can be
merged. -/
theorem mergeBranch_of_same (schema : Schema)
    {seed seed' merged merged' branch branch' made : TypeMap} (hbranch : branch.keys.Nodup)
    (hbranch' : branch'.keys.Nodup) (hmerged : merged.Same merged')
    (hbrings : ∀ e type, Brings seed branch e type ↔ Brings seed' branch' e type)
    (h : mergeBranch schema seed merged branch = .ok made) :
    ∃ made', mergeBranch schema seed' merged' branch' = .ok made' := by
  refine mergeBranch_succeeds schema hbranch' fun e type hb previous hprevious => ?_
  have hold := (find?_mergeBranch hbranch h e previous).2 (.inl ((hmerged e).trans hprevious))
  have hnew := (find?_mergeBranch hbranch h e type).2 (.inr ((hbrings e type).2 hb))
  exact Option.some.inj (hold.symm.trans hnew)

theorem nodup_mergeBranch {schema : Schema} {seed merged branch made : TypeMap}
    (hmerged : merged.keys.Nodup) (h : mergeBranch schema seed merged branch = .ok made) :
    made.keys.Nodup :=
  mergeBranch_keeps (P := fun types => types.keys.Nodup)
    (fun entry _ _ hn => nodup_insert hn entry.1 entry.2) hmerged h

theorem mergeBranch_agree (schema : Schema) {seed seed' merged merged' branch branch' : TypeMap}
    (hseed : seed.Twins known entities seed') (hmerged : merged.Twins known entities merged')
    (hbranch : branch.Twins known entities branch') :
    Concord (Twins known entities) (mergeBranch schema seed merged branch)
      (mergeBranch schema seed' merged' branch') := by
  have brings : ∀ e type, Brings seed branch e type ↔ Brings seed' branch' e type :=
    fun e type => by rw [Brings, Brings, hseed.same e, hbranch.same e]
  have tidy : ∀ {seed merged branch made : TypeMap}, merged.Tidy known → branch.Tidy known →
      mergeBranch schema seed merged branch = .ok made → made.Tidy known := by
    intro seed merged branch made hmerged hbranch h
    refine ⟨nodup_mergeBranch hmerged.nodup h, fun e type he => ?_⟩
    rcases (find?_mergeBranch hbranch.nodup h e type).1 he with he | he
    · exact hmerged.known e type he
    · exact hbranch.known e type he.1
  cases hrun : mergeBranch schema seed merged branch with
  | ok made =>
    obtain ⟨made', hrun'⟩ := mergeBranch_of_same schema hbranch.tidy.nodup hbranch.tidy'.nodup
      hmerged.same brings hrun
    rw [hrun']
    refine .ok ⟨tidy hmerged.tidy hbranch.tidy hrun, tidy hmerged.tidy' hbranch.tidy' hrun',
      keys_mergeBranch hmerged.keys hbranch.keys hrun,
      keys_mergeBranch hmerged.keys' hbranch.keys' hrun', fun e => Option.ext fun type => ?_⟩
    rw [find?_mergeBranch hbranch.tidy.nodup hrun, find?_mergeBranch hbranch.tidy'.nodup hrun',
      hmerged.same e, brings]
  | error fault =>
    cases hrun' : mergeBranch schema seed' merged' branch' with
    | error fault' => exact .error fault fault'
    | ok made' =>
      obtain ⟨_, hrun''⟩ := mergeBranch_of_same schema hbranch.tidy'.nodup hbranch.tidy.nodup
        (fun e => (hmerged.same e).symm) (fun e type => (brings e type).symm) hrun'
      cases hrun.symm.trans hrun''

/-- Branches that are inferred alike bring the same. -/
theorem gather_agree (schema : Schema) {seed seed' merged merged' : TypeMap}
    (hseed : seed.Twins known entities seed') (hmerged : merged.Twins known entities merged')
    {infers infers' : List Inferrer}
    (h : List.Forall₂ (Inferrer.Agree known entities) infers infers') :
    Concord (fun made made' : TypeMap × Bool =>
        made.2 = false ∧ made'.2 = false ∧ made.1.Twins known entities made'.1)
      (gather schema seed infers merged false) (gather schema seed' infers' merged' false) := by
  induction h generalizing merged merged' with
  | nil => exact .ok ⟨rfl, rfl, hmerged⟩
  | cons hinfer _ ih =>
    refine (hinfer _ _ ⟨rfl, rfl, hseed⟩).bind fun p p' hp => ?_
    refine ((mergeBranch_agree schema hseed hmerged hp.types).mapError _ _).bind
      fun made made' hmade => ?_
    rw [hp.calm, hp.calm']
    exact ih hmade

/-- Taking over types leaves those that were there, and adds those of entities that had none. -/
theorem find?_absorb (types merged : TypeMap) (e : Typeable) :
    (types.absorb merged).1.find? e = (types.find? e).or (merged.find? e) := by
  obtain ⟨entries⟩ := merged
  have hfold : ∀ (now : TypeMap) (changed : Bool),
      (entries.foldl (fun (acc : TypeMap × Bool) (entry : Typeable × Iri) =>
        if acc.1.contains entry.1 then (acc.1, acc.2) else (acc.1.insert entry.1 entry.2, true))
        (now, changed)).1.find? e = (now.find? e).or (entries.lookup e) := by
    induction entries with
    | nil => simp
    | cons entry entries ih =>
      intro now changed
      rw [List.foldl_cons, List.lookup_cons]
      dsimp only
      split
      · rename_i hcontains
        rw [ih]
        by_cases he : e = entry.1
        · obtain ⟨type, htype⟩ := Option.isSome_iff_exists.1 hcontains
          rw [he, htype]
          simp
        · rw [beq_eq_false_iff_ne.2 he]
      · rename_i hnot
        rw [ih, OrderedMap.find?_insert]
        by_cases he : e = entry.1
        · have hnone : now.find? entry.1 = none := by simpa [OrderedMap.contains] using hnot
          simp [he, hnone]
        · rw [if_neg he, beq_eq_false_iff_ne.2 he]
  exact hfold types false

theorem nodup_absorb {types : TypeMap} (h : types.keys.Nodup) (merged : TypeMap) :
    (types.absorb merged).1.keys.Nodup :=
  absorb_keeps (P := fun now _ => now.keys.Nodup)
    (fun entry _ _ _ _ hn => nodup_insert hn entry.1 entry.2) h

theorem Tidy.absorb {types merged : TypeMap} (h : types.Tidy known) (hmerged : merged.Tidy known) :
    Tidy known (types.absorb merged).1 := by
  refine ⟨nodup_absorb h.nodup merged, fun e type he => ?_⟩
  rw [find?_absorb, Option.or_eq_some_iff] at he
  exact he.elim (h.known e type) fun he => hmerged.known e type he.2

end TypeMap

theorem Pass.union_agree (o : Ontology) {known : List Iri} {entities : List Typeable}
    (schema : Schema) {infers infers' : List Inferrer}
    (h : List.Forall₂ (Inferrer.Agree known entities) infers infers') :
    Agree known entities (union schema infers) (union schema infers') := by
  rintro ⟨types, exhausted⟩ ⟨types', exhausted'⟩ ⟨hcalm, hcalm', htypes⟩
  dsimp only at hcalm hcalm' htypes
  subst hcalm hcalm'
  refine (TypeMap.gather_agree schema htypes (TypeMap.empty_twins known entities) h).bind ?_
  rintro ⟨merged, exhausted⟩ ⟨merged', exhausted'⟩ ⟨hout, hout', hmerged⟩
  dsimp only at hout hout' hmerged ⊢
  have hdown := TypeMap.absorb_descends o htypes.keys hmerged.keys
  have hdown' := TypeMap.absorb_descends o htypes.keys' hmerged.keys'
  have hsame : (types.absorb merged).1.Same (types'.absorb merged').1 := by
    intro e
    rw [TypeMap.find?_absorb, TypeMap.find?_absorb, htypes.same e, hmerged.same e]
  refine .ok ⟨⟨hout, hout', htypes.tidy.absorb hmerged.tidy, htypes.tidy'.absorb hmerged.tidy',
    hdown.keys, hdown'.keys, hsame⟩, ?_⟩
  refine TypeMap.changed_eq htypes.same hsame hdown hdown' ?_ ?_
  · exact fun hstill => ((TypeMap.absorb_spec types merged).2 hstill).1
  · exact fun hstill => ((TypeMap.absorb_spec types' merged').2 hstill).1

/-! ## Scopes -/

namespace Typist
variable {t : Typist} {known : List Iri}

/-- Where no predicate is a variable, the rule by subject classes has nothing to do. -/
theorem classes_idle {statements : List Statement} {filters : List Expression}
    (h : ∀ d ∈ t.demands statements filters, d.Among known) :
    Rule.all (statements.map t.subjectClass) = Rule.idle := by
  have hidle : ∀ s ∈ statements, t.subjectClass s = Rule.idle := by
    intro s hs
    have hpredicate : ∀ v, s.predicate ≠ .var v := by
      intro v hv
      have hmem : .follow v s.object ∈ t.statementDemands s := by
        simp [statementDemands, Statement.isType, hv, Entity.isRdfType, Entity.isIri,
          Typeable.ofEntity?]
      exact h _ (List.mem_append_left _ (List.mem_flatMap.2 ⟨s, hs, hmem⟩))
    funext types
    unfold subjectClass
    split
    · rename_i hv _
      exact absurd hv (hpredicate _)
    · rfl
  clear h
  induction statements with
  | nil => rfl
  | cons s statements ih =>
    rw [List.map_cons, Rule.all, hidle s List.mem_cons_self,
      ih fun s' hs' => hidle s' (List.mem_cons_of_mem _ hs'), Rule.idle_andThen]

variable {defs : Definitions} (h : Ontology.ofDefinitions defs = .ok t.ontology)
  {entities : List Typeable} {rounds : Nat}
  (hrounds : entities.length * (t.ontology.classes.length + 1) < rounds)
  (horder : t.ontology.Orderly known)
include h hrounds horder

theorem round_agree {statements statements' : List Statement} {filters filters' : List Expression}
    {unions unions' : Pass} (hs : statements.Perm statements') (he : filters.Perm filters')
    (hstatements : ∀ s ∈ statements, s.typeables ⊆ entities)
    (hfilters : ∀ e ∈ filters, e.typeables ⊆ entities)
    (hamong : ∀ d ∈ t.demands statements filters, d.Among known)
    (hu : Pass.Agree known entities unions unions') :
    Pass.Agree known entities (t.round rounds statements filters unions)
      (t.round rounds statements' filters' unions') := by
  have hmem : ∀ d, d ∈ t.demands statements filters ↔ d ∈ t.demands statements' filters' := by
    intro d
    simp only [demands, List.mem_append, List.mem_flatMap, hs.mem_iff, he.mem_iff]
  have hamong' : ∀ d ∈ t.demands statements' filters', d.Among known :=
    fun d hd => hamong d ((hmem d).2 hd)
  have hdown := rules_descend h hstatements hfilters
  have hdown' : (Rule.all (statements'.map t.statement ++ filters'.map t.filter)).Descends
      t.ontology entities :=
    rules_descend h (fun s hmem => hstatements s (hs.mem_iff.2 hmem))
      fun e hmem => hfilters e (he.mem_iff.2 hmem)
  have hsettle : Pass.Agree known entities
      (Pass.settle (Rule.all (statements.map t.statement ++ filters.map t.filter)) rounds)
      (Pass.settle (Rule.all (statements'.map t.statement ++ filters'.map t.filter)) rounds) := by
    rw [rules_eq] at hdown hdown'
    rw [rules_eq, rules_eq]
    exact Pass.settle_agree horder hmem hamong hdown hdown' hrounds
  intro p p' hp
  refine ((hsettle.andThen hu) p p' hp).bind ?_
  rintro ⟨made, changed⟩ ⟨made', changed'⟩ ⟨hmade, rfl⟩
  dsimp only
  cases changed with
  | true => exact .ok ⟨hmade, rfl⟩
  | false =>
    rw [classes_idle hamong, classes_idle hamong']
    exact .ok ⟨hmade, rfl⟩

/-- **Rearranged scopes are inferred alike.** -/
theorem inferScope_agree {a b : Scope} (hab : a.Rearranged b) (ha : a.Over entities)
    (hamong : ∀ d ∈ a.demands t, d.Among known) :
    Inferrer.Agree known entities (t.inferScope rounds a) (t.inferScope rounds b) := by
  induction a using Scope.by_unions generalizing b with
  | mk statements filters unions ih =>
    obtain ⟨hs, he, hu⟩ := hab
    cases ha with
    | mk hstatements hfilters hover =>
      rw [Scope.demands_mk, List.forall_mem_append] at hamong
      obtain ⟨hamong, hinner⟩ := hamong
      rw [inferScope_mk, inferScope_mk]
      have hunions := unions_converge t.ontology fun branches hbranches branch hbranch =>
        inferScope_converges h hrounds (hover branches hbranches branch hbranch)
      have hround := round_converges h hrounds hstatements hfilters hunions
      refine Pass.Agree.iterate ?_ hround hrounds
      refine round_agree h hrounds horder hs he hstatements hfilters hamong (.all ?_)
      refine forall₂_map_of_mem hu fun branches hbranches branches' hrel => ?_
      refine Pass.union_agree t.ontology t.schema
        (forall₂_map_of_mem hrel fun branch hbranch branch' hab => ?_)
      refine ih branches hbranches branch hbranch hab (hover branches hbranches branch hbranch) ?_
      intro d hd
      exact hinner d
        (List.mem_flatMap.2 ⟨branches, hbranches, List.mem_flatMap.2 ⟨branch, hbranch, hd⟩⟩)

end Typist

end OntoQuery
