import OntoQuery.Proofs.Demands
import OntoQuery.Proofs.Rounds

/-!
# Inferred types are a fixed point

Types are overwritten while a scope is inferred, so what a statement demanded early might be lost in
the end. It is not: a scope that does not run out of rounds ends with a round that changed nothing
(`Pass.Faithful.iterate_still`), and then neither any rule nor any union changes the types as they
stand (`Typist.round_still`). So the types fit every statement and filter of the scope, and each
branch of a union, inferred from them, adds no entity, only refines types, and does so as the other
branches do (`inferred_types_fit`).
-/

namespace OntoQuery

/-! ## The last round -/

/-- The step refines the types, tells the truth when it says that nothing changed, and never takes
the flag back. -/
structure Pass.Faithful (o : Ontology) (a : Pass) : Prop where
  refines : ∀ {p p' changed}, a p = .ok (p', changed) → p.types.Refines o p'.types
  unchanged : ∀ {p p'}, a p = .ok (p', false) → p'.types = p.types
  flag : a.Outlasts a

/-- The step changes nothing. -/
def Pass.Still (a : Pass) (p : Progress) : Prop :=
  a p = .ok (p, false)

namespace Pass
variable {o : Ontology}

theorem Faithful.still {a : Pass} (h : a.Faithful o) {p p' : Progress}
    (hrun : a p = .ok (p', false)) (hout : p'.exhausted = false) : p' = p := by
  have hkeeps := (h.flag p).keeps
  rw [hrun] at hkeeps
  have hflag : p.exhausted = false := by
    by_contra hflag
    cases hout.symm.trans (hkeeps (by simpa using hflag))
  have htypes := h.unchanged hrun
  obtain ⟨types, exhausted⟩ := p
  obtain ⟨types', exhausted'⟩ := p'
  simp_all

theorem andThen_ok {a b : Pass} {p p' : Progress} {changed : Bool}
    (h : a.andThen b p = .ok (p', changed)) :
    ∃ middle first second, a p = .ok (middle, first) ∧ b middle = .ok (p', second) ∧
      changed = (first || second) := by
  obtain ⟨⟨middle, first⟩, hfirst, h⟩ := bind_eq_ok.1 h
  obtain ⟨⟨last, second⟩, hsecond, h⟩ := bind_eq_ok.1 h
  cases pure_eq_ok.1 h
  exact ⟨middle, first, second, hfirst, hsecond, rfl⟩

theorem andThen_eq_ok {a b : Pass} {p middle last : Progress} {changed changed' : Bool}
    (ha : a p = .ok (middle, changed)) (hb : b middle = .ok (last, changed')) :
    a.andThen b p = .ok (last, changed || changed') := by
  rw [andThen, ha]
  change (b middle >>= fun made => _) = _
  rw [hb]
  rfl

theorem Faithful.andThen {a b : Pass} (ha : a.Faithful o) (hb : b.Faithful o) :
    (a.andThen b).Faithful o where
  refines h := by
    obtain ⟨middle, first, second, hfirst, hsecond, _⟩ := andThen_ok h
    exact (ha.refines hfirst).trans (hb.refines hsecond)
  unchanged h := by
    obtain ⟨middle, first, second, hfirst, hsecond, hor⟩ := andThen_ok h
    obtain ⟨rfl, rfl⟩ : first = false ∧ second = false := by simpa using hor.symm
    rw [hb.unchanged hsecond, ha.unchanged hfirst]
  flag := ha.flag.andThen hb.flag

/-- Where two steps in turn change nothing, each by itself changes nothing. -/
theorem Faithful.andThen_still {a b : Pass} (hb : b.Faithful o) {p : Progress}
    (hout : p.exhausted = false) (h : (a.andThen b).Still p) : a.Still p ∧ b.Still p := by
  obtain ⟨middle, first, second, hfirst, hsecond, hor⟩ := andThen_ok h
  obtain ⟨rfl, rfl⟩ : first = false ∧ second = false := by simpa using hor.symm
  have hmiddle : p = middle := hb.still hsecond hout
  subst hmiddle
  exact ⟨hfirst, hsecond⟩

theorem idle_faithful : idle.Faithful o where
  refines h := by
    cases h
    exact .refl _
  unchanged h := by
    cases h
    rfl
  flag _ := .ok id

theorem Faithful.all {as : List Pass} (h : ∀ a ∈ as, a.Faithful o) : (Pass.all as).Faithful o := by
  induction as with
  | nil => exact idle_faithful
  | cons a as ih =>
    exact (h a List.mem_cons_self).andThen (ih fun b hb => h b (List.mem_cons_of_mem _ hb))

/-- Where steps in turn change nothing, each step changes nothing. -/
theorem Faithful.all_still {as : List Pass} (h : ∀ a ∈ as, a.Faithful o) {p : Progress}
    (hout : p.exhausted = false) (hstill : (Pass.all as).Still p) : ∀ a ∈ as, a.Still p := by
  induction as with
  | nil => simp
  | cons a as ih =>
    have hrest : ∀ b ∈ as, b.Faithful o := fun b hb => h b (List.mem_cons_of_mem _ hb)
    obtain ⟨hfirst, hsecond⟩ :=
      (Faithful.all hrest).andThen_still hout hstill
    exact List.forall_mem_cons.2 ⟨hfirst, ih hrest hsecond⟩

theorem ofRule_ok {r : Rule} {p p' : Progress} {changed : Bool}
    (h : ofRule r p = .ok (p', changed)) : r p.types = .ok (p'.types, changed) := by
  obtain ⟨made, hmade, h⟩ := bind_eq_ok.1 h
  cases pure_eq_ok.1 h
  exact mapError_eq_ok.1 hmade

theorem ofRule_eq_ok {r : Rule} {p made : Progress} {changed : Bool} :
    ofRule r p = .ok (made, changed) ↔
      r p.types = .ok (made.types, changed) ∧ made.exhausted = p.exhausted := by
  constructor
  · intro hrun
    refine ⟨ofRule_ok hrun, ?_⟩
    obtain ⟨_, _, hrun⟩ := bind_eq_ok.1 hrun
    exact congrArg (·.1.exhausted) (pure_eq_ok.1 hrun).symm
  · rintro ⟨hrun, hflag⟩
    rw [ofRule, hrun, ← hflag]
    rfl

theorem ofRule_faithful {r : Rule} (hr : r.Refines o) : (ofRule r).Faithful o where
  refines h := hr.refines (ofRule_ok h)
  unchanged h := hr.unchanged (ofRule_ok h)
  flag := ofRule_outlasts r

/-- A rule that settles has changed nothing at once, or has changed something and settled after. -/
theorem settle_succ_ok {r : Rule} {rounds : Nat} {p p' : Progress} {changed : Bool}
    (h : settle r (rounds + 1) p = .ok (p', changed)) :
    (changed = false ∧ ofRule r p = .ok (p', false)) ∨
    changed = true ∧ ∃ middle changed', ofRule r p = .ok (middle, true) ∧
      settle r rounds middle = .ok (p', changed') := by
  obtain ⟨⟨middle, first⟩, hfirst, h⟩ := bind_eq_ok.1 h
  cases first with
  | false =>
    cases pure_eq_ok.1 h
    exact .inl ⟨rfl, hfirst⟩
  | true =>
    obtain ⟨⟨last, changed'⟩, hrest, h⟩ := bind_eq_ok.1 h
    cases pure_eq_ok.1 h
    exact .inr ⟨rfl, middle, changed', hfirst, hrest⟩

theorem settle_of_still {r : Rule} {p made : Progress} (h : ofRule r p = .ok (made, false))
    (rounds : Nat) : settle r (rounds + 1) p = .ok (made, false) := by
  change (ofRule r p >>= fun made => _) = _
  rw [h]
  rfl

theorem settle_of_moved {r : Rule} {p middle last : Progress} {rounds : Nat} {changed : Bool}
    (h : ofRule r p = .ok (middle, true)) (hrest : settle r rounds middle = .ok (last, changed)) :
    settle r (rounds + 1) p = .ok (last, true) := by
  change (ofRule r p >>= fun made => _) = _
  rw [h]
  change (settle r rounds middle >>= fun made => _) = _
  rw [hrest]
  rfl

/-- What a rule keeps is kept until it settles. -/
theorem settle_keeps (holds : TypeMap → Prop) {r : Rule}
    (hr : ∀ {types types' changed}, holds types → r types = .ok (types', changed) → holds types')
    {rounds : Nat} {p p' : Progress} (h : holds p.types) {changed : Bool}
    (hrun : settle r rounds p = .ok (p', changed)) : holds p'.types := by
  induction rounds generalizing p changed with
  | zero =>
    cases hrun
    exact h
  | succ rounds ih =>
    rcases settle_succ_ok hrun with ⟨_, hstill⟩ | ⟨_, middle, _, hfirst, hrest⟩
    · exact hr h (ofRule_ok hstill)
    · exact ih (hr h (ofRule_ok hfirst)) hrest

theorem settle_faithful {r : Rule} (hr : r.Refines o) (rounds : Nat) :
    (settle r rounds).Faithful o where
  refines {p _ _} h :=
    settle_keeps (p.types.Refines o) (fun hbefore hrun => hbefore.trans (hr.refines hrun))
      (.refl _) h
  unchanged := by
    intro p p' h
    cases rounds with
    | zero =>
      cases h
      rfl
    | succ rounds =>
      rcases settle_succ_ok h with ⟨_, h⟩ | ⟨hchanged, _⟩
      · exact (ofRule_faithful hr).unchanged h
      · cases hchanged
  flag := settle_outlasts r (Nat.le_refl rounds)

/-- A rule that settles without a change changes nothing. -/
theorem settle_still {r : Rule} {rounds : Nat} {p : Progress} (hout : p.exhausted = false)
    (h : (settle r rounds).Still p) : r p.types = .ok (p.types, false) := by
  cases rounds with
  | zero =>
    have hflag : p.exhausted = true := congrArg (·.1.exhausted) (Except.ok.inj h).symm
    cases hout.symm.trans hflag
  | succ rounds =>
    rcases settle_succ_ok h with ⟨_, h⟩ | ⟨hchanged, _⟩
    · exact ofRule_ok h
    · cases hchanged

/-- What a step keeps is kept by its repetition. -/
theorem iterate_keeps (holds : TypeMap → Prop) {a : Pass}
    (ha : ∀ {p p' changed}, holds p.types → a p = .ok (p', changed) → holds p'.types)
    {rounds : Nat} {p p' : Progress} (h : holds p.types) (hrun : iterate a rounds p = .ok p') :
    holds p'.types := by
  induction rounds generalizing p with
  | zero =>
    cases hrun
    exact h
  | succ rounds ih =>
    obtain ⟨⟨middle, changed⟩, hfirst, hrun⟩ := bind_eq_ok.1 hrun
    dsimp only at hrun
    split at hrun
    · exact ih (ha h hfirst) hrun
    · cases pure_eq_ok.1 hrun
      exact ha h hfirst

theorem Faithful.iterate_refines {a : Pass} (ha : a.Faithful o) {rounds : Nat} {p p' : Progress}
    (h : iterate a rounds p = .ok p') : p.types.Refines o p'.types :=
  iterate_keeps (p.types.Refines o) (fun hbefore hrun => hbefore.trans (ha.refines hrun))
    (.refl _) h

/-- A repetition that does not run out of rounds ends where its step changes nothing. -/
theorem Faithful.iterate_still {a : Pass} (ha : a.Faithful o) {rounds : Nat} {p p' : Progress}
    (h : iterate a rounds p = .ok p') (hout : p'.exhausted = false) : a.Still p' := by
  induction rounds generalizing p with
  | zero =>
    cases h
    cases hout
  | succ rounds ih =>
    obtain ⟨⟨middle, changed⟩, hmiddle, h⟩ := bind_eq_ok.1 h
    dsimp only at h
    split at h
    · exact ih h
    · rename_i hstop
      cases pure_eq_ok.1 h
      rw [hout, Bool.not_false, Bool.and_true, Bool.not_eq_true] at hstop
      subst hstop
      have hsame := ha.still hmiddle hout
      subst hsame
      exact hmiddle

end Pass

/-! ## Unions that change nothing -/

namespace TypeMap

/-- What a branch brings beyond the seed is in the merged types, and what was there stays. -/
theorem mergeBranch_ok {schema : Schema} {seed merged branch made : TypeMap}
    (h : mergeBranch schema seed merged branch = .ok made) :
    (∀ e type, merged.find? e = some type → made.find? e = some type) ∧
    ∀ e type, (e, type) ∈ branch.entries →
      seed.find? e = some type ∨ made.find? e = some type := by
  obtain ⟨entries⟩ := branch
  induction entries generalizing merged with
  | nil =>
    cases h
    exact ⟨fun _ _ he => he, by simp⟩
  | cons entry entries ih =>
    obtain ⟨e, type⟩ := entry
    obtain ⟨next, h, hnext⟩ := mergeBranch_cons_ok.1 h
    obtain ⟨hstays, hbrings⟩ := ih h
    have hstep : (∀ e' type', merged.find? e' = some type' → next.find? e' = some type') ∧
        (seed.find? e = some type ∨ next.find? e = some type) := by
      rcases hnext with ⟨rfl, hhere⟩ | ⟨rfl, _, hnone⟩
      · exact ⟨fun _ _ he => he, hhere⟩
      · refine ⟨fun e' type' he' => ?_, .inr (by simp)⟩
        rw [OrderedMap.find?_insert, if_neg]
        · exact he'
        · rintro rfl
          cases hnone.symm.trans he'
    refine ⟨fun e' type' he' => hstays _ _ (hstep.1 _ _ he'), ?_⟩
    intro e' type' hmem
    rcases List.mem_cons.1 hmem with heq | hmem
    · cases heq
      exact hstep.2.imp id (hstays _ _)
    · exact hbrings _ _ hmem

theorem mem_entries_of_find? {types : TypeMap} {e : Typeable} {type : Iri}
    (h : types.find? e = some type) : (e, type) ∈ types.entries := by
  obtain ⟨before, after, hsplit, _⟩ := List.lookup_eq_some_iff.1 h
  rw [hsplit]
  exact List.mem_append_right before List.mem_cons_self

/-- Taking over types leaves the known ones, and changes nothing only if there is nothing to
take. -/
theorem absorb_spec (types merged : TypeMap) :
    (∀ e type, types.find? e = some type → (types.absorb merged).1.find? e = some type) ∧
    ((types.absorb merged).2 = false →
      (types.absorb merged).1 = types ∧ ∀ entry ∈ merged.entries,
        types.contains entry.1 = true) := by
  obtain ⟨entries⟩ := merged
  -- Along the fold, a flag that is still down says that nothing was taken so far.
  have hfold : ∀ (now : TypeMap) (changed : Bool),
      let made := entries.foldl (fun (acc : TypeMap × Bool) (entry : Typeable × Iri) =>
        if acc.1.contains entry.1 then (acc.1, acc.2) else (acc.1.insert entry.1 entry.2, true))
        (now, changed)
      (∀ e type, now.find? e = some type → made.1.find? e = some type) ∧
      (made.2 = false → changed = false ∧ made.1 = now ∧
        ∀ entry ∈ entries, now.contains entry.1 = true) := by
    induction entries with
    | nil => exact fun now changed => ⟨fun _ _ he => he, fun h => ⟨h, rfl, by simp⟩⟩
    | cons entry entries ih =>
      intro now changed
      dsimp only
      rw [List.foldl_cons]
      split
      · rename_i hcontains
        obtain ⟨hstays, hdown⟩ := ih now changed
        refine ⟨hstays, fun h => ?_⟩
        obtain ⟨hchanged, hsame, hall⟩ := hdown h
        exact ⟨hchanged, hsame, List.forall_mem_cons.2 ⟨hcontains, hall⟩⟩
      · rename_i hnot
        obtain ⟨hstays, hdown⟩ := ih (now.insert entry.1 entry.2) true
        refine ⟨fun e type he => hstays e type ?_, fun h => by cases (hdown h).1⟩
        rw [OrderedMap.find?_insert, if_neg]
        · exact he
        · rintro rfl
          exact hnot (by simp [OrderedMap.contains, he])
  obtain ⟨hstays, hdown⟩ := hfold types false
  exact ⟨hstays, fun h => (hdown h).2⟩

/-- Each branch is inferred from the seed, and what it brings beyond the seed is among what is
gathered. -/
theorem gather_ok {schema : Schema} {seed : TypeMap} {infers : List Inferrer}
    (hflag : ∀ infer ∈ infers, Inferrer.Outlasts infer infer) {merged made : TypeMap}
    {exhausted : Bool} (h : gather schema seed infers merged exhausted = .ok (made, false)) :
    exhausted = false ∧ (∀ e type, merged.find? e = some type → made.find? e = some type) ∧
    ∀ infer ∈ infers, ∃ p, infer { types := seed, exhausted := false } = .ok p ∧
      p.exhausted = false ∧ ∀ e type, p.types.find? e = some type →
        seed.find? e = some type ∨ made.find? e = some type := by
  induction infers generalizing merged exhausted with
  | nil =>
    cases h
    exact ⟨rfl, fun _ _ he => he, by simp⟩
  | cons infer infers ih =>
    obtain ⟨p, hp, h⟩ := bind_eq_ok.1 h
    obtain ⟨next, hnext, h⟩ := bind_eq_ok.1 h
    obtain ⟨hout, hstays, hrest⟩ := ih (fun i hi => hflag i (List.mem_cons_of_mem _ hi)) h
    obtain ⟨hkept, hbrings⟩ := mergeBranch_ok (mapError_eq_ok.1 hnext)
    have hstart : exhausted = false := by
      have hkeeps := (hflag infer List.mem_cons_self { types := seed, exhausted }).keeps
      rw [hp] at hkeeps
      by_contra hex
      cases hout.symm.trans (hkeeps (by simpa using hex))
    subst hstart
    refine ⟨rfl, fun e type he => hstays _ _ (hkept _ _ he), List.forall_mem_cons.2 ⟨?_, hrest⟩⟩
    refine ⟨p, hp, hout, fun e type he => ?_⟩
    exact (hbrings e type (mem_entries_of_find? he)).imp id (hstays e type)

end TypeMap

namespace Pass
variable {o : Ontology} {schema : Schema} {infers : List Inferrer}

theorem union_faithful (hflag : ∀ infer ∈ infers, Inferrer.Outlasts infer infer) :
    (union schema infers).Faithful o where
  refines {p p' changed} h := by
    obtain ⟨⟨merged, exhausted⟩, _, h⟩ := bind_eq_ok.1 h
    cases pure_eq_ok.1 h
    exact fun e type he => ⟨type, (TypeMap.absorb_spec p.types merged).1 e type he, .refl⟩
  unchanged {p p'} h := by
    obtain ⟨⟨merged, exhausted⟩, _, h⟩ := bind_eq_ok.1 h
    have hdown : (p.types.absorb merged).2 = false := congrArg Prod.snd (pure_eq_ok.1 h)
    have htypes : (p.types.absorb merged).1 = p'.types := congrArg (·.1.types) (pure_eq_ok.1 h)
    exact htypes.symm.trans ((TypeMap.absorb_spec p.types merged).2 hdown).1
  flag := union_outlasts schema (List.forall₂_same.2 hflag)

/-- What the branches of a union come to, where it changes nothing: each is inferred from the types
as they stand and types no other entity, and two that change a type change it alike. -/
theorem union_still (hflag : ∀ infer ∈ infers, Inferrer.Outlasts infer infer) {p : Progress}
    (hout : p.exhausted = false) (h : (union schema infers).Still p) :
    ∃ merged : TypeMap, ∀ infer ∈ infers, ∃ p', infer p = .ok p' ∧ p'.exhausted = false ∧
      ∀ e type, p'.types.find? e = some type → p.types.contains e = true ∧
        (p.types.find? e = some type ∨ merged.find? e = some type) := by
  obtain ⟨types, exhausted⟩ := p
  dsimp only at hout
  subst hout
  obtain ⟨⟨merged, exhausted⟩, hgather, h⟩ := bind_eq_ok.1 h
  have hdown : (types.absorb merged).2 = false := congrArg Prod.snd (pure_eq_ok.1 h)
  have hend : exhausted = false := congrArg (·.1.exhausted) (pure_eq_ok.1 h)
  subst hend
  obtain ⟨_, hall⟩ := (TypeMap.absorb_spec types merged).2 hdown
  refine ⟨merged, fun infer hinfer => ?_⟩
  obtain ⟨p', hp', hout', hbrings⟩ := (TypeMap.gather_ok hflag hgather).2.2 infer hinfer
  refine ⟨p', hp', hout', fun e type he => ⟨?_, hbrings e type he⟩⟩
  rcases hbrings e type he with hseed | hmerged
  · simp [OrderedMap.contains, hseed]
  · exact hall _ (TypeMap.mem_entries_of_find? hmerged)

end Pass

/-! ## Scopes at rest -/

namespace Typist
variable (t : Typist) (rounds : Nat)

theorem rules_refine (statements : List Statement) (filters : List Expression) :
    (Rule.all (statements.map t.statement ++ filters.map t.filter)).Refines t.ontology := by
  rw [rules_eq]
  exact t.imposeAll_refines _

theorem classes_refine (statements : List Statement) :
    (Rule.all (statements.map t.subjectClass)).Refines t.ontology := by
  refine .all fun r hr => ?_
  obtain ⟨s, _, rfl⟩ := List.mem_map.1 hr
  exact t.subjectClass_refines s

theorem round_ok {statements : List Statement} {filters : List Expression} {unions : Pass}
    {p p' : Progress} {changed : Bool}
    (h : t.round rounds statements filters unions p = .ok (p', changed)) :
    let first := (Pass.settle (Rule.all (statements.map t.statement ++ filters.map t.filter))
      rounds).andThen unions
    (changed = true ∧ first p = .ok (p', true)) ∨
    ∃ middle, first p = .ok (middle, false) ∧
      Pass.ofRule (Rule.all (statements.map t.subjectClass)) middle = .ok (p', changed) := by
  obtain ⟨⟨middle, moved⟩, hfirst, h⟩ := bind_eq_ok.1 h
  cases moved with
  | true =>
    cases pure_eq_ok.1 h
    exact .inl ⟨rfl, hfirst⟩
  | false => exact .inr ⟨middle, hfirst, h⟩

variable {t rounds} {statements : List Statement} {filters : List Expression} {unions : Pass}

theorem round_faithful (h : unions.Faithful t.ontology) :
    (t.round rounds statements filters unions).Faithful t.ontology := by
  have hfirst := (Pass.settle_faithful (t.rules_refine statements filters) rounds).andThen h
  have hclasses := Pass.ofRule_faithful (t.classes_refine statements)
  refine ⟨?_, ?_, t.round_outlasts (Nat.le_refl rounds) statements filters h.flag⟩
  · intro p p' changed hrun
    rcases t.round_ok rounds hrun with ⟨_, hrun⟩ | ⟨middle, hrun, hlast⟩
    · exact hfirst.refines hrun
    · exact (hfirst.refines hrun).trans (hclasses.refines hlast)
  · intro p p' hrun
    rcases t.round_ok rounds hrun with ⟨hchanged, _⟩ | ⟨middle, hrun, hlast⟩
    · cases hchanged
    · rw [hclasses.unchanged hlast, hfirst.unchanged hrun]

/-- **Where a round changes nothing, every demand of the scope is met, and no union changes
anything.** -/
theorem round_still (h : unions.Faithful t.ontology) {p : Progress} (hout : p.exhausted = false)
    (hstill : (t.round rounds statements filters unions).Still p) :
    (∀ d ∈ t.demands statements filters, d.Met t.ontology p.types) ∧ unions.Still p := by
  rcases t.round_ok rounds hstill with ⟨hchanged, _⟩ | ⟨middle, hrun, hlast⟩
  · cases hchanged
  · have hmiddle : p = middle :=
      (Pass.ofRule_faithful (t.classes_refine statements)).still hlast hout
    subst hmiddle
    obtain ⟨hsettle, hunions⟩ := h.andThen_still hout hrun
    have hrules := Pass.settle_still hout hsettle
    rw [rules_eq] at hrules
    exact ⟨t.met_of_imposeAll hrules, hunions⟩

variable (t rounds) in
theorem inferScope_flag (scope : Scope) :
    Inferrer.Outlasts (t.inferScope rounds scope) (t.inferScope rounds scope) :=
  t.inferScope_outlasts (Nat.le_refl rounds) scope

variable (t rounds) in
theorem unions_faithful (unions : List (List Scope)) :
    ∀ a ∈ unions.map (fun branches => Pass.union t.schema (branches.map (t.inferScope rounds))),
      a.Faithful t.ontology := by
  intro a ha
  obtain ⟨branches, _, rfl⟩ := List.mem_map.1 ha
  refine Pass.union_faithful fun infer hinfer => ?_
  obtain ⟨branch, _, rfl⟩ := List.mem_map.1 hinfer
  exact t.inferScope_flag rounds branch

/-- Inference of a scope refines the types that it starts from. -/
theorem inferScope_refines {scope : Scope} {p p' : Progress}
    (h : t.inferScope rounds scope p = .ok p') : p.types.Refines t.ontology p'.types := by
  obtain ⟨statements, filters, unions⟩ := scope
  rw [inferScope_mk] at h
  exact (round_faithful (.all (t.unions_faithful rounds unions))).iterate_refines h

/-- A scope that does not run out of rounds ends at rest: its demands are met, and its unions change
nothing. -/
theorem inferScope_rests {scope : Scope} {p p' : Progress}
    (h : t.inferScope rounds scope p = .ok p') (hout : p'.exhausted = false) :
    (∀ d ∈ t.demands scope.statements scope.filters, d.Met t.ontology p'.types) ∧
    ∀ branches ∈ scope.unions,
      (Pass.union t.schema (branches.map (t.inferScope rounds))).Still p' := by
  obtain ⟨statements, filters, unions⟩ := scope
  rw [inferScope_mk] at h
  have hunions := t.unions_faithful rounds unions
  have hstill := (round_faithful (.all hunions)).iterate_still h hout
  obtain ⟨hmet, hstill⟩ := round_still (.all hunions) hout hstill
  refine ⟨hmet, fun branches hbranches => ?_⟩
  exact Pass.Faithful.all_still hunions hout hstill _ (List.mem_map.2 ⟨branches, hbranches, rfl⟩)

end Typist

/-! ## Types that fit -/

/-- The types fit what a statement says of its entities. -/
structure TypeMap.Fit (o : Ontology) (types : TypeMap) (s : Statement) : Prop where
  /-- A type statement gives its class to its subject. -/
  class_ : s.isType = true → ∀ e ref, Typeable.ofEntity? s.subject = some e → s.object = .iri ref →
    types.Keeps o e ref.iri.toInternal
  /-- A known property gives its object type to itself and to its object, and its subject type to
  its subject. -/
  property : s.isType = false → ∀ p, Typeable.ofEntity? s.predicate = some (.iri p) →
    (o.property? p).isSome = true → ∃ objectType subjectType,
      o.objectType p = .ok objectType ∧ o.subjectType p = .ok subjectType ∧
      (∀ type, objectType = some type → types.Keeps o (.iri p) type ∧
        ∀ e, Typeable.ofEntity? s.object = some e → types.Keeps o e type) ∧
      ∀ type, subjectType = some type →
        ∀ e, Typeable.ofEntity? s.subject = some e → types.Keeps o e type
  /-- A property variable has a type if its object has one, and then the object has it too. -/
  propertyVariable : ∀ v, s.predicate = .var v →
    (s.object.isLiteral = true ∨
      (∃ e, Typeable.ofEntity? s.object = some e ∧ types.contains e = true) →
        types.contains (.var v) = true) ∧
    ∀ type, types.find? (.var v) = some type →
      ∀ e, Typeable.ofEntity? s.object = some e → types.Keeps o e type

/-- The expression has the equality of two variables in it, under connectives only. -/
inductive Expression.Equates : Expression → Variable → Variable → Prop where
  | here (v w : Variable) : Equates (.compare (.entity (.var v)) .eq (.entity (.var w))) v w
  | andLeft {left : Expression} (right : Expression) {v w : Variable} :
    Equates left v w → Equates (.and left right) v w
  | andRight (left : Expression) {right : Expression} {v w : Variable} :
    Equates right v w → Equates (.and left right) v w
  | orLeft {left : Expression} (right : Expression) {v w : Variable} :
    Equates left v w → Equates (.or left right) v w
  | orRight (left : Expression) {right : Expression} {v w : Variable} :
    Equates right v w → Equates (.or left right) v w
  | not {inner : Expression} {v w : Variable} : Equates inner v w → Equates (.not inner) v w

/-- The variables have no types, or types of which each keeps when the other comes. -/
def TypeMap.Equal (o : Ontology) (types : TypeMap) (v w : Variable) : Prop :=
  (types.find? (.var v) = none ∧ types.find? (.var w) = none) ∨
  ∃ type type', types.find? (.var v) = some type ∧ types.find? (.var w) = some type' ∧
    o.refine type type' = .keep ∧ o.refine type' type = .keep

namespace Typist
variable {t : Typist} {types : TypeMap}

theorem keeps_of_typed? {e : Typeable} {type : Iri}
    (h : ∀ d ∈ Demand.typed? (some e) (some type), d.Met t.ontology types) :
    types.Keeps t.ontology e type :=
  h (.typed e type) List.mem_cons_self

theorem ask_ok {e : Typeable} {answer : Except OntologyError (Option Iri)} {type : Option Iri}
    (h : ask e answer = .ok type) : answer = .ok type :=
  mapError_eq_ok.1 h

theorem fit_of_met {s : Statement} (h : ∀ d ∈ t.statementDemands s, d.Met t.ontology types) :
    types.Fit t.ontology s where
  class_ hs e ref he href := by
    unfold statementDemands at h
    rw [if_pos hs, href, he] at h
    exact keeps_of_typed? h
  property hs p hp hproperty := by
    unfold statementDemands at h
    rw [if_neg (by simp [hs]), hp] at h
    dsimp only at h
    unfold propertyDemands at h
    rw [if_neg (by simpa [Option.isSome_iff_ne_none] using hproperty)] at h
    split at h
    · exact (h _ List.mem_cons_self).elim
    · exact (h _ List.mem_cons_self).elim
    · rename_i objectType subjectType hobject hsubject
      simp only [List.forall_mem_append] at h
      obtain ⟨hself, hobject', hsubject'⟩ := h
      refine ⟨objectType, subjectType, ask_ok hobject, ask_ok hsubject, ?_, ?_⟩
      · rintro type rfl
        refine ⟨keeps_of_typed? hself, fun e he => ?_⟩
        rw [he] at hobject'
        exact keeps_of_typed? hobject'
      · rintro type rfl e he
        rw [he] at hsubject'
        exact keeps_of_typed? hsubject'
  propertyVariable v hv := by
    have hs : s.isType = false := by simp [Statement.isType, hv, Entity.isRdfType, Entity.isIri]
    unfold statementDemands at h
    rw [if_neg (by simp [hs]), hv] at h
    obtain ⟨hobject, huntyped⟩ := h (.follow v s.object) List.mem_cons_self
    refine ⟨fun hknown => ?_, hobject⟩
    by_contra hnone
    obtain ⟨hliteral, hobjects⟩ := huntyped (by simpa [OrderedMap.contains] using hnone)
    rcases hknown with hknown | ⟨e, he, hknown⟩
    · cases hliteral.symm.trans hknown
    · simp [OrderedMap.contains, hobjects e he] at hknown

theorem mem_filterDemands_of_equates {e : Expression} {v w : Variable} (h : e.Equates v w) :
    .same v w ∈ t.filterDemands e := by
  induction h with
  | here v w => exact List.mem_cons_self
  | andLeft right _ ih | orLeft right _ ih => exact List.mem_append_left _ ih
  | andRight left _ ih | orRight left _ ih => exact List.mem_append_right _ ih
  | not _ ih => exact ih

theorem equal_of_met {v w : Variable} (h : (Demand.same v w).Met t.ontology types) :
    types.Equal t.ontology v w := by
  obtain ⟨hvw, hwv⟩ := h
  cases hv : types.find? (.var v) with
  | some type =>
    obtain ⟨type', hw, hkeep⟩ := hvw type hv
    obtain ⟨_, hv', hkeep'⟩ := hwv type' hw
    cases hv.symm.trans hv'
    exact .inr ⟨type, type', hv, hw, hkeep', hkeep⟩
  | none =>
    refine .inl ⟨hv, ?_⟩
    cases hw : types.find? (.var w) with
    | none => rfl
    | some type =>
      obtain ⟨_, hv', _⟩ := hwv type hw
      cases hv.symm.trans hv'

end Typist

/-- **Inferred types are a fixed point.** Where the inference of a body does not run out of rounds,
the types fit every statement of its scope, and two variables that a filter equates have no types or
ones that agree. Each branch of a union of the scope, inferred from these types, comes to an end as
well: it types no other entity and only refines types, and two branches that change the type of an
entity give it the same type. -/
theorem inferred_types_fit (t : Typist) (maxRounds : Nat) (body : Group) {p : Progress}
    (h : t.infer maxRounds body = .ok p) (hout : p.exhausted = false) :
    (∀ s ∈ (Scope.ofGroup body).statements, p.types.Fit t.ontology s) ∧
    (∀ e ∈ (Scope.ofGroup body).filters, ∀ v w, e.Equates v w → p.types.Equal t.ontology v w) ∧
    ∀ branches ∈ (Scope.ofGroup body).unions,
      (∀ branch ∈ branches, ∃ p', t.inferScope (max maxRounds 1) branch p = .ok p' ∧
        p'.exhausted = false ∧ p.types.Refines t.ontology p'.types ∧
        ∀ e, p'.types.contains e = true → p.types.contains e = true) ∧
      ∀ branch ∈ branches, ∀ branch' ∈ branches, ∀ p' p'',
        t.inferScope (max maxRounds 1) branch p = .ok p' →
        t.inferScope (max maxRounds 1) branch' p = .ok p'' → ∀ e,
          p'.types.find? e ≠ p.types.find? e → p''.types.find? e ≠ p.types.find? e →
            p'.types.find? e = p''.types.find? e := by
  obtain ⟨hmet, hstill⟩ := Typist.inferScope_rests h hout
  rw [Typist.demands, List.forall_mem_append] at hmet
  obtain ⟨hstatements, hfilters⟩ := hmet
  refine ⟨fun s hs => ?_, fun e he v w hequates => ?_, fun branches hbranches => ?_⟩
  · exact Typist.fit_of_met fun d hd => hstatements d (List.mem_flatMap.2 ⟨s, hs, hd⟩)
  · exact Typist.equal_of_met (hfilters _
      (List.mem_flatMap.2 ⟨e, he, Typist.mem_filterDemands_of_equates hequates⟩))
  · have hflag : ∀ infer ∈ branches.map (t.inferScope (max maxRounds 1)),
        Inferrer.Outlasts infer infer := by
      intro infer hinfer
      obtain ⟨branch, _, rfl⟩ := List.mem_map.1 hinfer
      exact t.inferScope_flag _ branch
    obtain ⟨merged, hbranch⟩ := Pass.union_still hflag hout (hstill branches hbranches)
    have hrun : ∀ branch ∈ branches, ∃ p', t.inferScope (max maxRounds 1) branch p = .ok p' ∧
        p'.exhausted = false ∧ ∀ e type, p'.types.find? e = some type → p.types.contains e = true ∧
          (p.types.find? e = some type ∨ merged.find? e = some type) :=
      fun branch hmem => hbranch _ (List.mem_map.2 ⟨branch, hmem, rfl⟩)
    constructor
    · intro branch hmem
      obtain ⟨p', hp', hout', hknown⟩ := hrun branch hmem
      refine ⟨p', hp', hout', Typist.inferScope_refines hp', fun e he => ?_⟩
      obtain ⟨type, htype⟩ := Option.isSome_iff_exists.1 he
      exact (hknown e type htype).1
    · -- A type that a branch changes is among the merged ones, and an entity has only one there.
      have hchanged : ∀ branch ∈ branches, ∀ p', t.inferScope (max maxRounds 1) branch p = .ok p' →
          ∀ e, p'.types.find? e ≠ p.types.find? e → p'.types.find? e = merged.find? e := by
        intro branch hmem p' hp' e hne
        obtain ⟨_, hp'', _, hknown⟩ := hrun branch hmem
        cases hp'.symm.trans hp''
        cases htype : p'.types.find? e with
        | some type =>
          rcases (hknown e type htype).2 with hseed | hmerged
          · exact absurd (htype.trans hseed.symm) hne
          · exact hmerged.symm
        | none =>
          -- No entity loses its type, so one without a type had none.
          exfalso
          apply hne
          cases hseed : p.types.find? e with
          | none => rw [htype]
          | some type =>
            obtain ⟨_, htype', _⟩ := Typist.inferScope_refines hp' e type hseed
            cases htype.symm.trans htype'
      intro branch hmem branch' hmem' p' p'' hp' hp'' e hne hne'
      rw [hchanged branch hmem p' hp' e hne, hchanged branch' hmem' p'' hp'' e hne']

/-- What a body comes to over an ontology, if it can be typed. -/
def Group.typed? (body : Group) (schema : Schema) :
    Except OntologyError Ontology → Option (Ontology × Progress)
  | .error _ => none
  | .ok o =>
    match Typist.infer ⟨o, schema⟩ 32 body with
    | .error _ => none
    | .ok p => some (o, p)

theorem Group.typed?_eq_some {body : Group} {schema : Schema}
    {built : Except OntologyError Ontology} {o : Ontology} {p : Progress}
    (h : body.typed? schema built = some (o, p)) :
    built = .ok o ∧ Typist.infer ⟨o, schema⟩ 32 body = .ok p := by
  unfold typed? at h
  split at h
  · cases h
  · split at h
    · cases h
    · rename_i hp
      cases h
      exact ⟨rfl, hp⟩

/-- Over the skeleton, a value that is equal to another and that a branch knows to be a text. -/
theorem inferred_types_fit_union :
    let asked : Statement := ⟨.var ⟨"r"⟩, .ofIri Base.hasValue, .var ⟨"v"⟩⟩
    let text : Group := [.triple (.var ⟨"v"⟩) (.ofIri Rdf.type) (.ofIri Base.textValue)]
    let body : Group :=
      [.statement asked, .filter (.compare (.entity (.var ⟨"v"⟩)) .eq (.entity (.var ⟨"w"⟩))),
       .union [text, []]]
    ∃ o p, Ontology.build {} = .ok o ∧ Typist.infer ⟨o, .complex⟩ 32 body = .ok p ∧
      p.exhausted = false ∧ p.types.Fit o asked ∧ p.types.Equal o ⟨"v"⟩ ⟨"w"⟩ ∧
      ∃ p', Typist.inferScope ⟨o, .complex⟩ 32 (Scope.ofGroup text) p = .ok p' ∧
        p.types.Refines o p'.types := by
  intro asked text body
  have hrun : (body.typed? .complex (Ontology.build {})).map (·.2.exhausted) = some false := by
    decide +kernel
  obtain ⟨⟨o, p⟩, htyped, hout⟩ := Option.map_eq_some_iff.1 hrun
  obtain ⟨hbuild, hp⟩ := Group.typed?_eq_some htyped
  obtain ⟨hfit, hequal, hunion⟩ := inferred_types_fit ⟨o, .complex⟩ 32 body hp hout
  obtain ⟨p', hp', _, hrefines, _⟩ :=
    (hunion _ List.mem_cons_self).1 (Scope.ofGroup text) List.mem_cons_self
  exact ⟨o, p, hbuild, hp, hout, hfit asked List.mem_cons_self,
    hequal _ List.mem_cons_self _ _ (.here _ _), p', hp', hrefines⟩

end OntoQuery
