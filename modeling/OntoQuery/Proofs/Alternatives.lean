import OntoQuery.Proofs.Ambiguity
import OntoQuery.Proofs.OrderFree

/-!
# The order of alternatives

The alternatives of a union are inferred one after the other, each from the types around the union,
and what they bring is merged. Here it is proved that their order does not matter: two queries that
differ only in the order of alternatives, in unions at any depth, are typed alike
(`union_alternatives_interchangeable`).

Two runs are compared step by step as long as neither runs out of rounds (`Accord`). They need not
keep in step inside a union: one may fail at a branch that the other comes to later. But if one of
them merges all its branches, then nothing that any branch brings stands against what another does,
and so the other run merges them too (`TypeMap.gather_forward`).
-/

namespace OntoQuery

/-! ## Runs that do not run out -/

/-- If neither computation runs out of rounds, both fail, or both give results that are related. -/
def Accord {α β : Type} (flag : α → Bool) (flag' : β → Bool) (R : α → β → Prop) (x : Except Halt α)
    (y : Except Halt β) : Prop :=
  ranOut flag x = false → ranOut flag' y = false → Concord R x y

section
variable {α β γ δ : Type} {flag : α → Bool} {flag' : β → Bool} {next : γ → Bool} {next' : δ → Bool}
  {R : α → β → Prop} {S : γ → δ → Prop}

/-- A computation has not run out if what comes after it has not. -/
theorem ranOut_of_bind {x : Except Halt α} {f : α → Except Halt γ}
    (hf : ∀ a, Outlasts next (flag a) (f a) (f a)) (hout : ranOut next (x >>= f) = false) :
    ranOut flag x = false := by
  cases x with
  | error halt => exact hout
  | ok a =>
    change ranOut next (f a) = false at hout
    change flag a = false
    by_contra hflag
    have hrun := (hf a).keeps (by simpa using hflag)
    cases hout.symm.trans hrun

theorem Accord.bind {x : Except Halt α} {y : Except Halt β} {f : α → Except Halt γ}
    {g : β → Except Halt δ} (h : Accord flag flag' R x y)
    (hf : ∀ a, Outlasts next (flag a) (f a) (f a)) (hg : ∀ b, Outlasts next' (flag' b) (g b) (g b))
    (hfg : ∀ a b, flag a = false → flag' b = false → R a b → Accord next next' S (f a) (g b)) :
    Accord next next' S (x >>= f) (y >>= g) := by
  intro hout hout'
  have hx := ranOut_of_bind hf hout
  have hy := ranOut_of_bind hg hout'
  cases h hx hy with
  | ok hab => exact hfg _ _ hx hy hab hout hout'
  | error halt halt' => exact .error halt halt'

theorem Accord.ok {a : α} {b : β} (h : R a b) : Accord flag flag' R (.ok a) (.ok b) :=
  fun _ _ => .ok h

end

/-! ## Types that do not depend on their order -/

/-- Both maps list each entity once, and they have the same types. -/
structure TypeMap.Reordered (types types' : TypeMap) : Prop where
  nodup : types.keys.Nodup
  nodup' : types'.keys.Nodup
  same : types.Same types'

namespace TypeMap
variable {types types' : TypeMap}

theorem Reordered.symm (h : types.Reordered types') : types'.Reordered types :=
  ⟨h.nodup', h.nodup, fun e => (h.same e).symm⟩

theorem Reordered.insert (h : types.Reordered types') (e : Typeable) (type : Iri) :
    Reordered (types.insert e type) (types'.insert e type) := by
  refine ⟨nodup_insert h.nodup e type, nodup_insert h.nodup' e type, ?_⟩
  intro e'
  rw [OrderedMap.find?_insert, OrderedMap.find?_insert, h.same e']

theorem Reordered.contains (h : types.Reordered types') (e : Typeable) :
    types.contains e = types'.contains e := by
  rw [OrderedMap.contains, OrderedMap.contains, h.same e]

end TypeMap

/-- From the same types the rule fails or comes to the same types, and it tells a change alike. -/
def Rule.Extensional (r : Rule) : Prop :=
  ∀ types types' : TypeMap, types.Reordered types' →
    Concord (fun made made' : TypeMap × Bool => made.1.Reordered made'.1 ∧ made.2 = made'.2)
      (r types) (r types')

namespace Rule

theorem idle_extensional : idle.Extensional :=
  fun _ _ h => .ok ⟨h, rfl⟩

theorem Extensional.andThen {a b : Rule} (ha : a.Extensional) (hb : b.Extensional) :
    (a.andThen b).Extensional := by
  intro types types' h
  apply (ha types types' h).bind
  rintro ⟨made, changed⟩ ⟨made', changed'⟩ ⟨hmade, rfl⟩
  apply (hb made made' hmade).bind
  rintro ⟨last, changed'⟩ ⟨last', changed''⟩ ⟨hlast, rfl⟩
  exact .ok ⟨hlast, rfl⟩

theorem Extensional.all {rs : List Rule} (h : ∀ r ∈ rs, r.Extensional) :
    (Rule.all rs).Extensional := by
  induction rs with
  | nil => exact idle_extensional
  | cons r rs ih =>
    exact (h r List.mem_cons_self).andThen (ih fun r' hr' => h r' (List.mem_cons_of_mem _ hr'))

end Rule

namespace Typist
variable {t : Typist}

theorem assign_extensional (e : Typeable) (type : Iri) : (t.assign e type).Extensional := by
  intro types types' h
  unfold assign
  rw [h.same e]
  cases types'.find? e with
  | none => exact .ok ⟨h.insert e type, rfl⟩
  | some current =>
    dsimp only
    cases t.ontology.refine current type with
    | keep => exact .ok ⟨h, rfl⟩
    | replace => exact .ok ⟨h.insert e type, rfl⟩
    | conflict => exact .error _ _

theorem assign?_extensional (e : Option Typeable) (type : Option Iri) :
    (t.assign? e type).Extensional := by
  cases e with
  | none => exact Rule.idle_extensional
  | some e =>
    cases type with
    | none => exact Rule.idle_extensional
    | some type => exact assign_extensional e type

theorem share_extensional (a : Typeable) (b : Option Typeable) : (t.share a b).Extensional := by
  intro types types' h
  unfold share
  rw [h.same a]
  exact assign?_extensional b _ types types' h

theorem propertyVariable_extensional (v : Variable) (object : Entity) :
    (t.propertyVariable v object).Extensional := by
  intro types types' h
  unfold propertyVariable
  rw [h.same (.var v)]
  cases types'.find? (.var v) with
  | some type => exact assign?_extensional _ _ types types' h
  | none =>
    cases object with
    | lit l => exact assign_extensional _ _ types types' h
    | var u => exact share_extensional _ _ types types' h
    | iri ref => exact share_extensional _ _ types types' h

theorem impose_extensional (d : Demand) : (t.impose d).Extensional := by
  cases d with
  | refuse fault => exact fun _ _ _ => .error fault fault
  | typed e type => exact assign_extensional e type
  | same v w => exact (share_extensional _ _).andThen (share_extensional _ _)
  | follow v object => exact propertyVariable_extensional v object

theorem imposeAll_extensional (ds : List Demand) : (t.imposeAll ds).Extensional := by
  apply Rule.Extensional.all
  intro r hr
  obtain ⟨d, _, rfl⟩ := List.mem_map.1 hr
  exact impose_extensional d

/-- The rules of a scope do not depend on the order of the types. -/
theorem rules_extensional (statements : List Statement) (filters : List Expression) :
    (Rule.all (statements.map t.statement ++ filters.map t.filter)).Extensional := by
  rw [rules_eq]
  exact imposeAll_extensional _

theorem subjectClass_extensional (s : Statement) : (t.subjectClass s).Extensional := by
  intro types types' h
  unfold subjectClass
  split
  · rename_i subject v object _ _ _
    rw [h.contains, h.contains, h.same subject]
    split
    · exact .ok ⟨h, rfl⟩
    · cases types'.find? subject with
      | none => exact .ok ⟨h, rfl⟩
      | some class_ =>
        dsimp only
        cases t.objectTypes (.var v) class_ with
        | error fault => exact .error fault fault
        | ok found =>
          simp only [bind, Except.bind]
          cases t.ontology.meet found with
          | mostSpecific type => exact assign_extensional _ _ types types' h
          | unrelated first second => exact .error _ _
          | nothing => exact .ok ⟨h, rfl⟩
  · exact .ok ⟨h, rfl⟩

theorem classes_extensional (statements : List Statement) :
    (Rule.all (statements.map t.subjectClass)).Extensional := by
  apply Rule.Extensional.all
  intro r hr
  obtain ⟨s, _, rfl⟩ := List.mem_map.1 hr
  exact subjectClass_extensional s

end Typist

/-! ## Steps side by side -/

/-- Neither step takes the flag back, and from the same types they come to the same types. -/
structure Pass.Parallel (a b : Pass) : Prop where
  flag : a.Outlasts a
  flag' : b.Outlasts b
  meet : ∀ p p' : Progress, p.types.Reordered p'.types →
    Accord (·.1.exhausted) (·.1.exhausted) (fun made made' : Progress × Bool =>
      made.1.types.Reordered made'.1.types ∧ made.2 = made'.2) (a p) (b p')

/-- Neither way of inference takes the flag back, and from the same types they come to the same
types. -/
structure Inferrer.Parallel (a b : Inferrer) : Prop where
  flag : Inferrer.Outlasts a a
  flag' : Inferrer.Outlasts b b
  meet : ∀ p p' : Progress, p.types.Reordered p'.types →
    Accord (·.exhausted) (·.exhausted)
      (fun q q' : Progress => q.types.Reordered q'.types) (a p) (b p')

namespace Pass

theorem Parallel.andThen {a a' b b' : Pass} (ha : a.Parallel a') (hb : b.Parallel b') :
    (a.andThen b).Parallel (a'.andThen b') where
  flag := ha.flag.andThen hb.flag
  flag' := ha.flag'.andThen hb.flag'
  meet p p' h := by
    apply (ha.meet p p' h).bind
    · exact fun made => (hb.flag made.1).bind fun _ => .ok id
    · exact fun made => (hb.flag' made.1).bind fun _ => .ok id
    · rintro ⟨made, changed⟩ ⟨made', changed'⟩ _ _ ⟨hmade, rfl⟩
      apply (hb.meet made made' hmade).bind
      · exact fun _ => .ok id
      · exact fun _ => .ok id
      · rintro ⟨last, changed'⟩ ⟨last', changed''⟩ _ _ ⟨hlast, rfl⟩
        exact .ok ⟨hlast, rfl⟩

theorem Parallel.all {as as' : List Pass} (h : List.Forall₂ Parallel as as') :
    (Pass.all as).Parallel (Pass.all as') := by
  induction h with
  | nil => exact ⟨fun _ => .ok id, fun _ => .ok id, fun _ _ h => .ok ⟨h, rfl⟩⟩
  | cons ha _ ih => exact ha.andThen ih

theorem ofRule_parallel {r : Rule} (hr : r.Extensional) : (ofRule r).Parallel (ofRule r) where
  flag := ofRule_outlasts r
  flag' := ofRule_outlasts r
  meet p p' h _ _ := by
    apply ((hr p.types p'.types h).mapError _ _).bind
    rintro ⟨made, changed⟩ ⟨made', changed'⟩ ⟨hmade, rfl⟩
    exact .ok ⟨hmade, rfl⟩

theorem settle_parallel {r : Rule} (hr : r.Extensional) (rounds : Nat) :
    (settle r rounds).Parallel (settle r rounds) := by
  have hflag : ∀ rounds, (settle r rounds).Outlasts (settle r rounds) :=
    fun rounds => settle_outlasts r (Nat.le_refl rounds)
  refine ⟨hflag rounds, hflag rounds, ?_⟩
  induction rounds with
  | zero =>
    intro p p' _ hout
    cases hout
  | succ rounds ih =>
    intro p p' h
    apply ((ofRule_parallel hr).meet p p' h).bind
    · intro made
      dsimp only
      split
      · exact (hflag rounds made.1).bind fun _ => .ok id
      · exact .ok id
    · intro made
      dsimp only
      split
      · exact (hflag rounds made.1).bind fun _ => .ok id
      · exact .ok id
    · rintro ⟨made, changed⟩ ⟨made', changed'⟩ _ _ ⟨hmade, rfl⟩
      cases changed with
      | false => exact .ok ⟨hmade, rfl⟩
      | true =>
        apply (ih made made' hmade).bind
        · exact fun _ => .ok id
        · exact fun _ => .ok id
        · rintro ⟨last, _⟩ ⟨last', _⟩ _ _ ⟨hlast, _⟩
          exact .ok ⟨hlast, rfl⟩

theorem Parallel.iterate {a b : Pass} (h : a.Parallel b) (rounds : Nat) :
    Inferrer.Parallel (iterate a rounds) (iterate b rounds) := by
  have hflag : ∀ {c : Pass}, c.Outlasts c → ∀ rounds,
      Inferrer.Outlasts (Pass.iterate c rounds) (Pass.iterate c rounds) :=
    fun hc rounds => hc.iterate (Nat.le_refl rounds)
  refine ⟨hflag h.flag rounds, hflag h.flag' rounds, ?_⟩
  induction rounds with
  | zero =>
    intro p p' _ hout
    cases hout
  | succ rounds ih =>
    intro p p' heq
    apply (h.meet p p' heq).bind
    · intro made
      dsimp only
      split
      · exact hflag h.flag rounds made.1
      · exact .ok id
    · intro made
      dsimp only
      split
      · exact hflag h.flag' rounds made.1
      · exact .ok id
    · rintro ⟨made, changed⟩ ⟨made', changed'⟩ hout hout' ⟨hmade, rfl⟩
      dsimp only at hout hout' ⊢
      rw [hout, hout']
      cases changed with
      | false => exact .ok hmade
      | true => exact ih made made' hmade

end Pass

/-! ## Branches in another order -/

theorem Inferrer.Parallel.symm {a b : Inferrer} (h : a.Parallel b) : b.Parallel a where
  flag := h.flag'
  flag' := h.flag
  meet p p' heq hout hout' := by
    have hmeet := h.meet p' p heq.symm hout' hout
    generalize a p' = x at hmeet
    generalize b p = y at hmeet
    cases hmeet with
    | ok hsame => exact .ok hsame.symm
    | error halt halt' => exact .error halt' halt

namespace TypeMap

/-- Branches that bring no types but those of `limit` are merged, if none of them runs out, and what
is gathered has no other types either. -/
theorem gather_succeeds {schema : Schema} {seed limit : TypeMap} {infers : List Inferrer}
    (hflag : ∀ infer ∈ infers, Inferrer.Outlasts infer infer)
    (hbrings : ∀ infer ∈ infers,
      ranOut (·.exhausted) (infer { types := seed, exhausted := false }) = false →
        ∃ p, infer { types := seed, exhausted := false } = .ok p ∧ p.types.keys.Nodup ∧
        ∀ e type, Brings seed p.types e type → limit.find? e = some type)
    {merged : TypeMap} (hnodup : merged.keys.Nodup)
    (hmerged : ∀ e type, merged.find? e = some type → limit.find? e = some type)
    (hout : ranOut Prod.snd (gather schema seed infers merged false) = false) :
    ∃ made, gather schema seed infers merged false = .ok (made, false) ∧ made.keys.Nodup ∧
      ∀ e type, made.find? e = some type → limit.find? e = some type := by
  induction infers generalizing merged with
  | nil => exact ⟨merged, rfl, hnodup, hmerged⟩
  | cons infer infers ih =>
    have hrest : ∀ infer' ∈ infers, Inferrer.Outlasts infer' infer' :=
      fun infer' hmem => hflag infer' (List.mem_cons_of_mem _ hmem)
    have hcalm : ranOut (·.exhausted) (infer { types := seed, exhausted := false }) = false := by
      refine ranOut_of_bind (fun p => ?_) hout
      exact (p.attempt_outlasts _).bind fun made =>
        gather_outlasts schema seed (List.forall₂_same.2 hrest) made p.exhausted
    obtain ⟨p, hp, hbranch, hlimit⟩ := hbrings infer List.mem_cons_self hcalm
    rw [hp] at hcalm
    have hmerge : ∃ made, mergeBranch schema seed merged p.types = .ok made := by
      apply mergeBranch_succeeds schema hbranch
      intro e type hb previous hprevious
      exact Option.some.inj ((hmerged e previous hprevious).symm.trans (hlimit e type hb))
    obtain ⟨made, hmade⟩ := hmerge
    have hstep : gather schema seed (infer :: infers) merged false =
        gather schema seed infers made false := by
      obtain ⟨types, exhausted⟩ := p
      cases hcalm
      rw [gather, hp]
      simp only [bind, Except.bind, Progress.attempt, hmade, Except.mapError]
    rw [hstep] at hout ⊢
    apply ih hrest (fun infer' hmem => hbrings infer' (List.mem_cons_of_mem _ hmem))
      (nodup_mergeBranch hnodup hmade) _ hout
    intro e type he
    cases (find?_mergeBranch hbranch hmade e type).1 he with
    | inl he => exact hmerged e type he
    | inr he => exact hlimit e type he

/-- **If all branches are merged in one order, they are merged in another**, and nothing else comes
of it. -/
theorem gather_forward {schema : Schema} {seed seed' made : TypeMap} (hseed : seed.Reordered seed')
    {infers infers' : List Inferrer}
    (hmatch : ∀ infer' ∈ infers', ∃ infer ∈ infers, infer.Parallel infer')
    (hflag : ∀ infer ∈ infers, Inferrer.Outlasts infer infer)
    (hrun : gather schema seed infers .empty false = .ok (made, false))
    (hout : ranOut Prod.snd (gather schema seed' infers' .empty false) = false) :
    ∃ made', gather schema seed' infers' .empty false = .ok (made', false) ∧ made'.keys.Nodup ∧
      ∀ e type, made'.find? e = some type → made.find? e = some type := by
  refine gather_succeeds ?_ ?_ List.nodup_nil (by simp) hout
  · intro infer' hinfer'
    obtain ⟨infer, _, hpar⟩ := hmatch infer' hinfer'
    exact hpar.flag'
  · intro infer' hinfer' hcalm'
    obtain ⟨infer, hinfer, hpar⟩ := hmatch infer' hinfer'
    obtain ⟨p, hp, hcalm, hbrings⟩ := (gather_ok hflag hrun).2.2 infer hinfer
    have hmeet := hpar.meet ⟨seed, false⟩ ⟨seed', false⟩ hseed (by rw [hp]; exact hcalm) hcalm'
    rw [hp] at hmeet
    generalize infer' { types := seed', exhausted := false } = y at hmeet
    cases hmeet with
    | ok hsame =>
      refine ⟨_, rfl, hsame.nodup', ?_⟩
      rintro e type ⟨hbranch, hnew⟩
      rw [← hsame.same e] at hbranch
      rw [← hseed.same e] at hnew
      exact (hbrings e type hbranch).resolve_left hnew

/-- Whether types were taken over can be seen from the types. -/
theorem exists_of_absorb {types merged : TypeMap} (h : (types.absorb merged).2 = true) :
    ∃ e, types.find? e = none ∧ (types.absorb merged).1.find? e ≠ none := by
  have hkept : (∀ e, types.find? e ≠ none → (types.absorb merged).1.find? e ≠ none) ∧
      ((types.absorb merged).2 = true →
        ∃ e, types.find? e = none ∧ (types.absorb merged).1.find? e ≠ none) := by
    apply absorb_keeps (P := fun now changed => (∀ e, types.find? e ≠ none → now.find? e ≠ none) ∧
      (changed = true → ∃ e, types.find? e = none ∧ now.find? e ≠ none))
    · intro entry _ now changed hnone hP
      refine ⟨?_, fun _ => ⟨entry.1, ?_, by simp⟩⟩
      · intro e he
        rw [OrderedMap.find?_insert]
        split
        · simp
        · exact hP.1 e he
      · by_contra hsome
        exact hP.1 entry.1 hsome hnone
    · exact ⟨fun _ => id, by simp⟩
  exact hkept.2 h

theorem Reordered.absorb_changed {types types' merged merged' : TypeMap}
    (h : types.Reordered types') (hmade : (types.absorb merged).1.Same (types'.absorb merged').1)
    (hchanged : (types.absorb merged).2 = true) : (types'.absorb merged').2 = true := by
  obtain ⟨e, hnone, hsome⟩ := exists_of_absorb hchanged
  by_contra hstill
  have hsame := ((absorb_spec types' merged').2 (by simpa using hstill)).1
  apply hsome
  rw [hmade e, hsame, ← h.same e, hnone]

theorem Reordered.absorb {types types' merged merged' : TypeMap} (h : types.Reordered types')
    (hmerged : merged.Same merged') : (types.absorb merged).1.Reordered (types'.absorb merged').1 ∧
      (types.absorb merged).2 = (types'.absorb merged').2 := by
  have hsame : (types.absorb merged).1.Same (types'.absorb merged').1 := by
    intro e
    rw [find?_absorb, find?_absorb, h.same e, hmerged e]
  refine ⟨⟨nodup_absorb h.nodup merged, nodup_absorb h.nodup' merged', hsame⟩, ?_⟩
  rw [Bool.eq_iff_iff]
  constructor
  · exact h.absorb_changed hsame
  · exact h.symm.absorb_changed fun e => (hsame e).symm

end TypeMap

section
variable {schema : Schema} {infers infers' : List Inferrer}
  (hmatch : ∀ infer ∈ infers, ∃ infer' ∈ infers', infer.Parallel infer')
  (hmatch' : ∀ infer' ∈ infers', ∃ infer ∈ infers, infer.Parallel infer')
include hmatch hmatch'

theorem TypeMap.gather_accord {seed seed' : TypeMap} (hseed : seed.Reordered seed') :
    Accord Prod.snd Prod.snd (fun made made' : TypeMap × Bool => made.1.Same made'.1)
      (gather schema seed infers .empty false) (gather schema seed' infers' .empty false) := by
  have hflag : ∀ infer ∈ infers, Inferrer.Outlasts infer infer := by
    intro infer hinfer
    obtain ⟨_, _, hpar⟩ := hmatch infer hinfer
    exact hpar.flag
  have hflag' : ∀ infer' ∈ infers', Inferrer.Outlasts infer' infer' := by
    intro infer' hinfer'
    obtain ⟨_, _, hpar⟩ := hmatch' infer' hinfer'
    exact hpar.flag'
  have hback : ∀ infer ∈ infers, ∃ infer' ∈ infers', infer'.Parallel infer := by
    intro infer hinfer
    obtain ⟨infer', hinfer', hpar⟩ := hmatch infer hinfer
    exact ⟨infer', hinfer', hpar.symm⟩
  intro hout hout'
  cases hrun : gather schema seed infers .empty false with
  | ok made =>
    obtain ⟨made, exhausted⟩ := made
    rw [hrun] at hout
    cases hout
    obtain ⟨made', hrun', _, hfrom⟩ := gather_forward hseed hmatch' hflag hrun hout'
    obtain ⟨_, hlast, _, hto⟩ := gather_forward hseed.symm hback hflag' hrun' (by rw [hrun]; rfl)
    cases hrun.symm.trans hlast
    rw [hrun']
    exact .ok fun e => Option.ext fun type => ⟨hto e type, hfrom e type⟩
  | error halt =>
    cases hrun' : gather schema seed' infers' .empty false with
    | error halt' => exact .error halt halt'
    | ok made' =>
      obtain ⟨made', exhausted⟩ := made'
      rw [hrun'] at hout'
      cases hout'
      obtain ⟨_, hlast, _⟩ := gather_forward hseed.symm hback hflag' hrun' hout
      cases hrun.symm.trans hlast

/-- **A union does not depend on the order of its branches.** -/
theorem Pass.union_parallel : (union schema infers).Parallel (union schema infers') := by
  have hunion : (union schema infers).Outlasts (union schema infers) := by
    apply union_outlasts schema
    rw [List.forall₂_same]
    intro infer hinfer
    obtain ⟨_, _, hpar⟩ := hmatch infer hinfer
    exact hpar.flag
  have hunion' : (union schema infers').Outlasts (union schema infers') := by
    apply union_outlasts schema
    rw [List.forall₂_same]
    intro infer' hinfer'
    obtain ⟨_, _, hpar⟩ := hmatch' infer' hinfer'
    exact hpar.flag'
  refine ⟨hunion, hunion', ?_⟩
  rintro ⟨types, exhausted⟩ ⟨types', exhausted'⟩ heq hout hout'
  -- A union that starts with the flag set has run out, so both start with it down.
  have hstart : exhausted = false := by
    by_contra hset
    cases hout.symm.trans ((hunion ⟨types, exhausted⟩).keeps (by simpa using hset))
  have hstart' : exhausted' = false := by
    by_contra hset
    cases hout'.symm.trans ((hunion' ⟨types', exhausted'⟩).keeps (by simpa using hset))
  subst hstart hstart'
  refine (TypeMap.gather_accord hmatch hmatch' heq).bind (fun _ => .ok id)
    (fun _ => .ok id) ?_ hout hout'
  intro merged merged' _ _ hmerged
  exact .ok (heq.absorb hmerged)

end

/-! ## Scopes -/

/-- The scopes have the same statements and filters, and the branches of their unions stand in
another order, at any depth. -/
inductive Scope.Interchanged : Scope → Scope → Prop where
  | mk (statements : List Statement) (filters : List Expression)
    {unions middle unions' : List (List Scope)} :
    List.Forall₂ List.Perm unions middle → List.Forall₂ (List.Forall₂ Interchanged) middle unions' →
      Interchanged (.mk statements filters unions) (.mk statements filters unions')

namespace Scope

theorem Interchanged.append {a a' b b' : Scope} (ha : a.Interchanged a') (hb : b.Interchanged b') :
    (a ++ b).Interchanged (a' ++ b') := by
  cases ha with
  | mk s e hperm hrel =>
    cases hb with
    | mk s' e' hperm' hrel' =>
      exact .mk (s ++ s') (e ++ e') (List.rel_append hperm hperm') (List.rel_append hrel hrel')

end Scope

namespace Typist
variable (t : Typist) (rounds : Nat)

theorem round_parallel (statements : List Statement) (filters : List Expression)
    {unions unions' : Pass} (h : unions.Parallel unions') :
    (t.round rounds statements filters unions).Parallel
      (t.round rounds statements filters unions') where
  flag := t.round_outlasts (Nat.le_refl rounds) statements filters h.flag
  flag' := t.round_outlasts (Nat.le_refl rounds) statements filters h.flag'
  meet p p' heq := by
    have hsettle := Pass.settle_parallel (t.rules_extensional statements filters) rounds
    have hclasses := Pass.ofRule_parallel (t.classes_extensional statements)
    apply ((hsettle.andThen h).meet p p' heq).bind
    · intro made
      dsimp only
      split
      · exact .ok id
      · exact Pass.ofRule_outlasts _ made.1
    · intro made
      dsimp only
      split
      · exact .ok id
      · exact Pass.ofRule_outlasts _ made.1
    · rintro ⟨made, changed⟩ ⟨made', changed'⟩ _ _ ⟨hmade, rfl⟩
      cases changed with
      | true => exact .ok ⟨hmade, rfl⟩
      | false => exact hclasses.meet made made' hmade

/-- **Scopes whose branches stand in another order are inferred alike.** -/
theorem inferScope_parallel {a b : Scope} (h : a.Interchanged b) :
    Inferrer.Parallel (t.inferScope rounds a) (t.inferScope rounds b) := by
  induction a using Scope.by_unions generalizing b with
  | mk statements filters unions ih =>
    cases h with
    | @mk _ _ _ middle unions' hperm hrel =>
      rw [inferScope_mk, inferScope_mk]
      apply Pass.Parallel.iterate
      apply round_parallel
      apply Pass.Parallel.all
      clear filters statements
      induction hperm generalizing unions' with
      | nil =>
        cases hrel
        exact .nil
      | @cons branches branches' unions middle hbranches _ ihu =>
        cases hrel with
        | @cons _ last _ unions' hlast hrest =>
          refine .cons ?_ (ihu (fun bs hbs => ih bs (List.mem_cons_of_mem _ hbs)) hrest)
          apply Pass.union_parallel
          · intro infer hinfer
            obtain ⟨branch, hbranch, rfl⟩ := List.mem_map.1 hinfer
            obtain ⟨branch', hbranch', hab⟩ :=
              exists_of_mem_left hlast (hbranches.mem_iff.1 hbranch)
            exact ⟨_, List.mem_map_of_mem hbranch',
              ih branches List.mem_cons_self branch hbranch hab⟩
          · intro infer' hinfer'
            obtain ⟨branch', hbranch', rfl⟩ := List.mem_map.1 hinfer'
            obtain ⟨branch, hbranch, hab⟩ := exists_of_mem_right hlast hbranch'
            have hmem := hbranches.mem_iff.2 hbranch
            exact ⟨_, List.mem_map_of_mem hmem, ih branches List.mem_cons_self branch hmem hab⟩

end Typist

/-! ## Queries -/

/-- The patterns are the same but for the order of alternatives, in the pattern itself or in groups
inside it. -/
inductive Pattern.Interchanged : Pattern → Pattern → Prop where
  | statement (s : Statement) : Interchanged (.statement s) (.statement s)
  | filter (e : Expression) : Interchanged (.filter e) (.filter e)
  | optional {g g' : Group} : List.Forall₂ Interchanged g g' →
    Interchanged (.optional g) (.optional g')
  | minus {g g' : Group} : List.Forall₂ Interchanged g g' → Interchanged (.minus g) (.minus g')
  | union {gs middle gs' : List Group} : gs.Perm middle →
    List.Forall₂ (List.Forall₂ Interchanged) middle gs' → Interchanged (.union gs) (.union gs')

/-- The groups are the same but for the order of alternatives, at any depth. -/
def Group.Interchanged (g g' : Group) : Prop :=
  List.Forall₂ Pattern.Interchanged g g'

namespace Group

theorem Interchanged.scope {g g' : Group} (h : g.Interchanged g') :
    (Scope.ofGroup g).Interchanged (Scope.ofGroup g') := by
  induction g using Group.by_patterns generalizing g' with
  | nil =>
    cases h
    exact .mk [] [] .nil .nil
  | statement s ps ih =>
    obtain ⟨_, ps', ⟨⟩, hps, rfl⟩ := List.forall₂_cons_left_iff.1 h
    exact (Scope.Interchanged.mk [s] [] .nil .nil).append (ih hps)
  | filter e ps ih =>
    obtain ⟨_, ps', ⟨⟩, hps, rfl⟩ := List.forall₂_cons_left_iff.1 h
    exact (Scope.Interchanged.mk [] [e] .nil .nil).append (ih hps)
  | optional g ps ihg ih | minus g ps ihg ih =>
    obtain ⟨_, ps', hp, hps, rfl⟩ := List.forall₂_cons_left_iff.1 h
    cases hp with
    | _ hg => exact (ihg hg).append (ih hps)
  | union gs ps ihg ih =>
    obtain ⟨_, ps', hp, hps, rfl⟩ := List.forall₂_cons_left_iff.1 h
    cases hp with
    | @union _ middle gs' hperm hrel =>
      refine Scope.Interchanged.append ?_ (ih hps)
      have hbranches : List.Forall₂ Scope.Interchanged (middle.map Scope.ofGroup)
          (gs'.map Scope.ofGroup) := by
        apply forall₂_map_of_mem hrel
        intro g hg g' hgg'
        exact ihg g (hperm.mem_iff.2 hg) hgg'
      rw [Scope.ofPattern, Scope.ofPattern, Scope.ofGroups_eq, Scope.ofGroups_eq]
      exact .mk [] [] (.cons (hperm.map Scope.ofGroup) .nil) (.cons hbranches .nil)

theorem Interchanged.statements_perm {g g' : Group} (h : g.Interchanged g') :
    g.statements.Perm g'.statements := by
  induction g using Group.by_patterns generalizing g' with
  | nil =>
    cases h
    exact .refl _
  | statement s ps ih =>
    obtain ⟨_, ps', ⟨⟩, hps, rfl⟩ := List.forall₂_cons_left_iff.1 h
    exact (ih hps).cons s
  | filter e ps ih =>
    obtain ⟨_, ps', ⟨⟩, hps, rfl⟩ := List.forall₂_cons_left_iff.1 h
    rw [statements_filter, statements_filter]
    exact ih hps
  | optional g ps ihg ih =>
    obtain ⟨_, ps', hp, hps, rfl⟩ := List.forall₂_cons_left_iff.1 h
    cases hp with
    | optional hg =>
      rw [statements_optional, statements_optional]
      exact (ihg hg).append (ih hps)
  | minus g ps ihg ih =>
    obtain ⟨_, ps', hp, hps, rfl⟩ := List.forall₂_cons_left_iff.1 h
    cases hp with
    | minus hg =>
      rw [statements_minus, statements_minus]
      exact (ihg hg).append (ih hps)
  | union gs ps ihg ih =>
    obtain ⟨_, ps', hp, hps, rfl⟩ := List.forall₂_cons_left_iff.1 h
    cases hp with
    | @union _ middle gs' hperm hrel =>
      rw [statements_union, statements_union]
      refine List.Perm.append ?_ (ih hps)
      have hinner : ∀ g ∈ middle, ∀ g', List.Forall₂ Pattern.Interchanged g g' →
          (statements g).Perm (statements g') :=
        fun g hg g' hgg' => ihg g (hperm.mem_iff.2 hg) hgg'
      apply (hperm.flatMap_right statements).trans
      clear hperm ihg ih hps h
      induction hrel with
      | nil => exact .refl _
      | cons hgg' _ ihr =>
        rw [List.flatMap_cons, List.flatMap_cons]
        exact (hinner _ List.mem_cons_self _ hgg').append
          (ihr fun g hg => hinner g (List.mem_cons_of_mem _ hg))

end Group

/-- Both computations give results that are related, or fail with faults of one kind. -/
inductive Matched {α β : Type} (R : α → β → Prop) : Except Fault α → Except Fault β → Prop where
  | ok {a : α} {b : β} : R a b → Matched R (.ok a) (.ok b)
  | error {fault fault' : Fault} : fault.kind = fault'.kind →
    Matched R (.error fault) (.error fault')

theorem Matched.bind {α β γ δ : Type} {R : α → β → Prop} {S : γ → δ → Prop} {x : Except Fault α}
    {y : Except Fault β} {f : α → Except Fault γ} {g : β → Except Fault δ} (h : Matched R x y)
    (hfg : ∀ a b, R a b → Matched S (f a) (g b)) : Matched S (x >>= f) (y >>= g) := by
  cases h with
  | ok hab => exact hfg _ _ hab
  | error hkind => exact .error hkind

theorem Concord.matched {α β : Type} {R : α → β → Prop} {x : Except Fault α} {y : Except Fault β}
    {kind : FaultKind} (h : Concord R x y) (hx : ∀ fault, x = .error fault → fault.kind = kind)
    (hy : ∀ fault, y = .error fault → fault.kind = kind) : Matched R x y := by
  cases h with
  | ok hab => exact .ok hab
  | error fault fault' => exact .error ((hx fault rfl).trans (hy fault' rfl).symm)

namespace Query

/-- Typing the query comes to the end of its rounds: it gets to inference, and some scope runs
out. -/
def RunsOut (q : Query) (o : Ontology) (rounds : Nat) : Prop :=
  (Roles.ofGroup q.body).conflict? = none ∧
    ranOut (·.exhausted) (Typist.infer ⟨o, q.schema⟩ rounds q.body) = true

instance (q : Query) (o : Ontology) (rounds : Nat) : Decidable (q.RunsOut o rounds) :=
  inferInstanceAs (Decidable (_ ∧ _))

/-- The same is told of every entity of both queries, or they fail to be typed with faults of one
kind. -/
def TypedSame (o : Ontology) (rounds : Nat) (q q' : Query) : Prop :=
  Matched (fun types types' : Types => ∀ e, types.find? e = types'.find? e) (q.inferTypes o rounds)
    (q'.inferTypes o rounds)

end Query

namespace Typist
variable {t : Typist} {roles : Roles} {types : TypeMap}

theorem describe_error {e : Typeable} {fault : Fault}
    (h : t.describe roles types e = .error fault) : fault.kind = .untypedVariable := by
  unfold describe at h
  split at h
  · split at h <;> cases h
    rfl
  · cases h

theorem described_matched {order order' : List Typeable} (hmem : ∀ e, e ∈ order ↔ e ∈ order') :
    Matched (fun infos infos' => ∀ e,
      (infos.filterMap id).lookup e = (infos'.filterMap id).lookup e)
      (order.mapM (t.describe roles types)) (order'.mapM (t.describe roles types)) := by
  have huntyped : ∀ order : List Typeable, ∀ fault,
      order.mapM (t.describe roles types) = .error fault → fault.kind = .untypedVariable := by
    intro order fault h
    obtain ⟨_, e, _, _, _, he⟩ := mapM_eq_error.1 h
    exact describe_error he
  exact (described_agree (fun e told => describe_key) hmem).matched (huntyped order)
    (huntyped order')

end Typist

/-- **The order of alternatives does not matter.** Take two queries whose bodies are the same but
for the order of the alternatives of unions, at any depth. If neither runs out of rounds, then both
can be typed and the same is told of every entity, or both fail with faults of one kind. -/
theorem union_alternatives_interchangeable (o : Ontology) (q : Query) {body' : Group}
    (h : q.body.Interchanged body') {rounds : Nat} (hout : ¬ q.RunsOut o rounds)
    (hout' : ¬ Query.RunsOut { q with body := body' } o rounds) :
    q.TypedSame o rounds { q with body := body' } := by
  have hstatements := h.statements_perm
  unfold Query.TypedSame Query.inferTypes
  dsimp only
  cases hconflict : (Roles.ofGroup q.body).conflict? with
  | some e =>
    cases hconflict' : (Roles.ofGroup body').conflict? with
    | some e' => exact .error rfl
    | none => cases hconflict.symm.trans (Roles.conflict?_of_perm hstatements.symm hconflict')
  | none =>
    have hconflict' := Roles.conflict?_of_perm hstatements hconflict
    rw [hconflict']
    have hcalm : ranOut (·.exhausted) (Typist.infer ⟨o, q.schema⟩ rounds q.body) = false := by
      by_contra hran
      exact hout ⟨hconflict, by simpa using hran⟩
    have hcalm' : ranOut (·.exhausted) (Typist.infer ⟨o, q.schema⟩ rounds body') = false := by
      by_contra hran
      exact hout' ⟨hconflict', by simpa using hran⟩
    have hmeet : Concord (fun p p' : Progress => p.types.Reordered p'.types)
        (Typist.infer ⟨o, q.schema⟩ rounds q.body) (Typist.infer ⟨o, q.schema⟩ rounds body') :=
      (Typist.inferScope_parallel _ _ h.scope).meet ⟨.empty, false⟩ ⟨.empty, false⟩
        ⟨List.nodup_nil, List.nodup_nil, fun _ => rfl⟩ hcalm hcalm'
    have hambiguous : ∀ body fault, (Typist.infer ⟨o, q.schema⟩ rounds body).mapError (·.fault) =
        .error fault → fault.kind = .ambiguousType := by
      intro body fault hfault
      obtain ⟨halt, hhalt, rfl⟩ := mapError_eq_error.1 hfault
      exact Typist.inferScope_failsAmbiguous _ _ (Scope.ofGroup body) _ halt hhalt
    apply ((hmeet.mapError _ _).matched (hambiguous q.body) (hambiguous body')).bind
    intro p p' hsame
    have hdescribe : Typist.describe ⟨o, q.schema⟩ (Roles.ofGroup q.body) p.types =
        Typist.describe ⟨o, q.schema⟩ (Roles.ofGroup body') p'.types :=
      funext fun e => Typist.describe_congr (Roles.contains_predicates hstatements e) (hsame.same e)
    rw [hdescribe]
    apply (Typist.described_matched fun e => (Roles.mem_of_perm hstatements e).1).bind
    intro infos infos' hinfos
    exact .ok hinfos

/-- Alternatives that change places in a union and in another one inside an alternative of it. -/
theorem union_alternatives_interchangeable_nested :
    let asked : Pattern := .triple (.var ⟨"r"⟩) (.ofIri Base.hasValue) (.var ⟨"v"⟩)
    let text : Pattern := .triple (.var ⟨"v"⟩) (.ofIri Rdf.type) (.ofIri Base.textValue)
    let link : Pattern := .triple (.var ⟨"r"⟩) (.ofIri Base.hasLinkTo) (.var ⟨"s"⟩)
    let label : Pattern := .triple (.var ⟨"r"⟩) (.ofIri Rdfs.label) (.var ⟨"n"⟩)
    let q : Query :=
      { schema := .complex, template := [],
        body := [asked, .union [[.union [[link], [label]], text], []]] }
    let body' : Group := [asked, .union [[], [.union [[label], [link]], text]]]
    ∃ o, Ontology.build {} = .ok o ∧ (q.inferTypes o 32).isOk = true ∧
      q.body.Interchanged body' ∧ ¬ q.RunsOut o 32 ∧ ¬ Query.RunsOut { q with body := body' } o 32 ∧
      q.TypedSame o 32 { q with body := body' } := by
  intro asked text link label q body'
  have hrun : ((Ontology.build {}).toOption.map fun o =>
      decide ((q.inferTypes o 32).isOk = true ∧ ¬ q.RunsOut o 32 ∧
        ¬ Query.RunsOut { q with body := body' } o 32)) = some true := by
    decide +kernel
  obtain ⟨o, hbuild, hok, hout, hout'⟩ := Ontology.exists_built hrun
  have hinner : Pattern.Interchanged (.union [[link], [label]]) (.union [[label], [link]]) :=
    .union (.swap _ _ _)
      (.cons (.cons (.statement _) .nil) (.cons (.cons (.statement _) .nil) .nil))
  have hbody : q.body.Interchanged body' :=
    .cons (.statement _) (.cons (.union (.swap _ _ _)
      (.cons .nil (.cons (.cons hinner (.cons (.statement _) .nil)) .nil))) .nil)
  exact ⟨o, hbuild, hok, hbody, hout, hout',
    union_alternatives_interchangeable o q hbody hout hout'⟩

end OntoQuery
