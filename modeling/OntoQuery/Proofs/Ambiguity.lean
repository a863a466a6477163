import OntoQuery.Proofs.Spelling

/-!
# Why inference fails

Inference of a scope fails only because types are ambiguous: two types of an entity conflict, the
ontology has no single constraint, or branches disagree (`Typist.inferScope_failsAmbiguous`). So two
runs that both fail do so with faults of one kind, wherever each of them stopped.
-/

namespace OntoQuery

section
variable {ε α β : Type} {kind : ε → FaultKind}

/-- If the computation fails, it is because types are ambiguous. -/
def FailsAmbiguous (kind : ε → FaultKind) (x : Except ε α) : Prop :=
  ∀ e, x = .error e → kind e = .ambiguousType

theorem FailsAmbiguous.ok (a : α) : FailsAmbiguous kind (.ok a) := by
  intro e he
  cases he

theorem FailsAmbiguous.bind {x : Except ε α} {f : α → Except ε β} (h : FailsAmbiguous kind x)
    (hf : ∀ a, FailsAmbiguous kind (f a)) : FailsAmbiguous kind (x >>= f) := by
  intro e he
  cases bind_eq_error.1 he with
  | inl hx => exact h e hx
  | inr hx =>
    obtain ⟨a, _, ha⟩ := hx
    exact hf a e ha

theorem FailsAmbiguous.attempt {x : Except Fault α} (h : FailsAmbiguous Fault.kind x)
    (p : Progress) : FailsAmbiguous (·.fault.kind) (p.attempt x) := by
  intro halt he
  obtain ⟨fault, hx, rfl⟩ := mapError_eq_error.1 he
  exact h fault hx

end

/-! ## Rules -/

/-- A rule that fails finds types ambiguous. -/
def Rule.FailsAmbiguous (r : Rule) : Prop :=
  ∀ types, OntoQuery.FailsAmbiguous Fault.kind (r types)

theorem Rule.FailsAmbiguous.andThen {a b : Rule} (ha : a.FailsAmbiguous) (hb : b.FailsAmbiguous) :
    (a.andThen b).FailsAmbiguous :=
  fun types => (ha types).bind fun made => (hb made.1).bind fun _ => .ok _

theorem Rule.FailsAmbiguous.all {rs : List Rule} (h : ∀ r ∈ rs, r.FailsAmbiguous) :
    (Rule.all rs).FailsAmbiguous := by
  induction rs with
  | nil => exact fun _ => .ok _
  | cons r rs ih =>
    exact (h r List.mem_cons_self).andThen (ih fun r' hr' => h r' (List.mem_cons_of_mem _ hr'))

namespace Typist
variable {t : Typist}

theorem assign_failsAmbiguous (e : Typeable) (type : Iri) : (t.assign e type).FailsAmbiguous := by
  intro types
  unfold assign
  cases types.find? e with
  | none => exact .ok _
  | some current =>
    dsimp only
    cases t.ontology.refine current type with
    | keep => exact .ok _
    | replace => exact .ok _
    | conflict =>
      intro fault hfault
      cases hfault
      rfl

theorem assign?_failsAmbiguous (e : Option Typeable) (type : Option Iri) :
    (t.assign? e type).FailsAmbiguous := by
  cases e with
  | none => exact fun _ => .ok _
  | some e =>
    cases type with
    | none => exact fun _ => .ok _
    | some type => exact assign_failsAmbiguous e type

theorem propertyVariable_failsAmbiguous (v : Variable) (object : Entity) :
    (t.propertyVariable v object).FailsAmbiguous := by
  intro types
  unfold propertyVariable
  cases types.find? (.var v) with
  | some type => exact assign?_failsAmbiguous _ _ types
  | none =>
    cases object with
    | lit l => exact assign_failsAmbiguous _ _ types
    | var u => exact assign?_failsAmbiguous _ _ types
    | iri ref => exact assign?_failsAmbiguous _ _ types

theorem ask_failsAmbiguous (e : Typeable) (answer : Except OntologyError (Option Iri)) :
    FailsAmbiguous Fault.kind (ask e answer) := by
  intro fault hfault
  obtain ⟨cause, _, rfl⟩ := mapError_eq_error.1 hfault
  rfl

theorem property_failsAmbiguous (p : Iri) (subject object : Option Typeable) :
    (t.property p subject object).FailsAmbiguous := by
  intro types
  unfold property
  split
  · exact .ok _
  · apply (ask_failsAmbiguous _ _).bind
    intro objectType
    apply (ask_failsAmbiguous _ _).bind
    intro subjectType
    apply Rule.FailsAmbiguous.all
    simp [assign?_failsAmbiguous]

theorem statement_failsAmbiguous (s : Statement) : (t.statement s).FailsAmbiguous := by
  unfold statement
  dsimp only
  split
  · split
    · exact assign?_failsAmbiguous _ _
    · exact fun _ => .ok _
  · split
    · exact property_failsAmbiguous _ _ _
    · exact propertyVariable_failsAmbiguous _ _
    · exact fun _ => .ok _

theorem comparison_failsAmbiguous (op : Comparison) (a b : Entity) :
    (t.comparison op a b).FailsAmbiguous := by
  unfold comparison
  split
  · exact assign_failsAmbiguous _ _
  · exact assign_failsAmbiguous _ _
  · split
    · exact Rule.FailsAmbiguous.andThen (fun types => assign?_failsAmbiguous _ _ types)
        fun types => assign?_failsAmbiguous _ _ types
    · exact fun _ => .ok _
  · split
    · exact fun types => (ask_failsAmbiguous _ _).bind fun _ => assign?_failsAmbiguous _ _ types
    · exact fun _ => .ok _
  · split
    · exact fun types => (ask_failsAmbiguous _ _).bind fun _ => assign?_failsAmbiguous _ _ types
    · exact fun _ => .ok _
  · exact fun _ => .ok _

theorem filter_failsAmbiguous : ∀ e : Expression, (t.filter e).FailsAmbiguous
  | .entity _ => fun _ => .ok _
  | .compare left op right => by
    cases left with
    | entity a =>
      cases right with
      | entity b => exact comparison_failsAmbiguous op a b
      | _ => exact fun _ => .ok _
    | _ => exact fun _ => .ok _
  | .and left right => (filter_failsAmbiguous left).andThen (filter_failsAmbiguous right)
  | .or left right => (filter_failsAmbiguous left).andThen (filter_failsAmbiguous right)
  | .not inner => filter_failsAmbiguous inner
  | .call .regex [] | .call .lang [] | .call .langMatches [] => fun _ => .ok _
  | .call .regex (_ :: _) | .call .lang (_ :: _) => assign?_failsAmbiguous _ _
  | .call .langMatches (e :: _) => filter_failsAmbiguous e
  | .call .str _ | .call .bound _ => fun _ => .ok _

theorem subjectClass_failsAmbiguous (s : Statement) : (t.subjectClass s).FailsAmbiguous := by
  intro types
  unfold subjectClass
  split
  · split
    · exact .ok _
    · split
      · exact .ok _
      · have hobjects : ∀ e class_, FailsAmbiguous Fault.kind (t.objectTypes e class_) := by
          intro e class_
          refine FailsAmbiguous.bind ?_ fun _ => .ok _
          intro fault hfault
          obtain ⟨_, p, _, _, _, hp⟩ := mapM_eq_error.1 hfault
          exact ask_failsAmbiguous _ _ fault hp
        apply (hobjects _ _).bind
        intro types'
        split
        · exact assign_failsAmbiguous _ _ types
        · intro fault hfault
          cases hfault
          rfl
        · exact .ok _
  · exact .ok _

end Typist

/-! ## Steps -/

/-- A step that fails finds types ambiguous. -/
def Pass.FailsAmbiguous (a : Pass) : Prop :=
  ∀ p, OntoQuery.FailsAmbiguous (·.fault.kind) (a p)

namespace Pass

theorem FailsAmbiguous.andThen {a b : Pass} (ha : a.FailsAmbiguous) (hb : b.FailsAmbiguous) :
    (a.andThen b).FailsAmbiguous :=
  fun p => (ha p).bind fun made => (hb made.1).bind fun _ => .ok _

theorem FailsAmbiguous.all {as : List Pass} (h : ∀ a ∈ as, FailsAmbiguous a) :
    (Pass.all as).FailsAmbiguous := by
  induction as with
  | nil => exact fun _ => .ok _
  | cons a as ih =>
    exact (h a List.mem_cons_self).andThen (ih fun b hb => h b (List.mem_cons_of_mem _ hb))

theorem ofRule_failsAmbiguous {r : Rule} (h : r.FailsAmbiguous) : (ofRule r).FailsAmbiguous :=
  fun p => ((h p.types).attempt p).bind fun _ => .ok _

theorem settle_failsAmbiguous {r : Rule} (h : r.FailsAmbiguous) (rounds : Nat) :
    (settle r rounds).FailsAmbiguous := by
  induction rounds with
  | zero => exact fun _ => .ok _
  | succ rounds ih =>
    intro p
    apply (ofRule_failsAmbiguous h p).bind
    intro made
    dsimp only
    split
    · exact (ih made.1).bind fun _ => .ok _
    · exact .ok _

theorem iterate_failsAmbiguous {a : Pass} (h : a.FailsAmbiguous) (rounds : Nat) (p : Progress) :
    OntoQuery.FailsAmbiguous (·.fault.kind) (iterate a rounds p) := by
  induction rounds generalizing p with
  | zero => exact .ok _
  | succ rounds ih =>
    apply (h p).bind
    intro made
    dsimp only
    split
    · exact ih made.1
    · exact .ok _

end Pass

namespace TypeMap

theorem mergeBranch_failsAmbiguous (schema : Schema) (seed merged branch : TypeMap) :
    FailsAmbiguous Fault.kind (mergeBranch schema seed merged branch) := by
  obtain ⟨entries⟩ := branch
  unfold mergeBranch
  dsimp only
  induction entries generalizing merged with
  | nil => exact .ok _
  | cons entry entries ih =>
    rw [List.foldlM_cons]
    refine FailsAmbiguous.bind ?_ ih
    split
    · exact .ok _
    · split
      · exact .ok _
      · split
        · exact .ok _
        · intro fault hfault
          cases hfault
          rfl

theorem gather_failsAmbiguous (schema : Schema) (seed : TypeMap) {infers : List Inferrer}
    (h : ∀ infer ∈ infers, ∀ p, FailsAmbiguous (·.fault.kind) (infer p)) (merged : TypeMap)
    (exhausted : Bool) :
    FailsAmbiguous (·.fault.kind) (gather schema seed infers merged exhausted) := by
  induction infers generalizing merged exhausted with
  | nil => exact .ok _
  | cons infer infers ih =>
    apply (h infer List.mem_cons_self _).bind
    intro p
    apply ((mergeBranch_failsAmbiguous schema seed merged p.types).attempt p).bind
    intro made
    exact ih (fun infer' hmem => h infer' (List.mem_cons_of_mem _ hmem)) made p.exhausted

end TypeMap

/-- **Inference fails only because types are ambiguous.** -/
theorem Typist.inferScope_failsAmbiguous (t : Typist) (rounds : Nat) (scope : Scope)
    (p : Progress) : FailsAmbiguous (·.fault.kind) (t.inferScope rounds scope p) := by
  induction scope using Scope.by_unions generalizing p with
  | mk statements filters unions ih =>
    rw [inferScope_mk]
    apply Pass.iterate_failsAmbiguous
    intro p
    have hrules :
        (Rule.all (statements.map t.statement ++ filters.map t.filter)).FailsAmbiguous := by
      apply Rule.FailsAmbiguous.all
      intro r hr
      cases List.mem_append.1 hr with
      | inl hr =>
        obtain ⟨s, _, rfl⟩ := List.mem_map.1 hr
        exact statement_failsAmbiguous s
      | inr hr =>
        obtain ⟨e, _, rfl⟩ := List.mem_map.1 hr
        exact filter_failsAmbiguous e
    have hclasses : (Rule.all (statements.map t.subjectClass)).FailsAmbiguous := by
      apply Rule.FailsAmbiguous.all
      intro r hr
      obtain ⟨s, _, rfl⟩ := List.mem_map.1 hr
      exact subjectClass_failsAmbiguous s
    have hunions : (Pass.all (unions.map fun branches =>
        .union t.schema (branches.map (t.inferScope rounds)))).FailsAmbiguous := by
      apply Pass.FailsAmbiguous.all
      intro a ha p
      obtain ⟨branches, hbranches, rfl⟩ := List.mem_map.1 ha
      refine FailsAmbiguous.bind (TypeMap.gather_failsAmbiguous _ _ ?_ _ _) fun _ => .ok _
      intro infer hinfer p
      obtain ⟨branch, hbranch, rfl⟩ := List.mem_map.1 hinfer
      exact ih branches hbranches branch hbranch p
    apply (((Pass.settle_failsAmbiguous hrules rounds).andThen hunions) p).bind
    intro made
    dsimp only
    split
    · exact .ok _
    · exact Pass.ofRule_failsAmbiguous hclasses made.1

end OntoQuery
