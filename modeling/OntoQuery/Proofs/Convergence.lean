import OntoQuery.Proofs.Refinement
import OntoQuery.Proofs.Rounds

/-!
# Type inference converges

Repetition in type inference is bounded by a number of rounds. Here it is proved that with enough
rounds for the entities of the body and the classes of the ontology, no scope at any depth ever
comes to the bound, and that the outcome is then the same for every such bound
(`inference_converges`).

Every rule descends, in the sense of `TypeMap.slack`, and so does every step that is made of rules
and of the merging of unions: what a branch brings is merged only for entities without a type. A
repetition that descends with each change ends before its rounds do.
-/

namespace OntoQuery

/-- The computation ends without a scope out of rounds, and if it gives a result, with a good
one. -/
def Ends {α : Type} (good : α → Prop) : Except Halt α → Prop
  | .ok a => good a
  | .error halt => halt.exhausted = false

section
variable {α β : Type} {good : α → Prop} {good' : β → Prop}

theorem Ends.bind {x : Except Halt α} {f : α → Except Halt β} (h : Ends good x)
    (hf : ∀ a, good a → Ends good' (f a)) : Ends good' (x >>= f) := by
  cases x with
  | ok a => exact hf a h
  | error halt => exact h

theorem Ends.mono {better : α → Prop} {x : Except Halt α} (h : Ends good x)
    (hmono : ∀ a, good a → better a) : Ends better x := by
  cases x with
  | ok a => exact hmono a h
  | error halt => exact h

theorem Progress.ends_attempt {p : Progress} (hp : p.exhausted = false) {x : Except Fault α}
    (h : ∀ a, x = .ok a → good a) : Ends good (p.attempt x) := by
  cases x with
  | ok a => exact h a rfl
  | error fault => exact hp

end

/-- The step does not run out of rounds, and descends. -/
def Pass.Converges (o : Ontology) (entities : List Typeable) (a : Pass) : Prop :=
  ∀ p : Progress, p.exhausted = false → p.types.keys ⊆ entities →
    Ends (fun made => made.1.exhausted = false ∧
      TypeMap.Descends o entities p.types made.1.types made.2) (a p)

/-- Inference does not run out of rounds, and types the given entities only. -/
def Inferrer.Converges (entities : List Typeable) (a : Inferrer) : Prop :=
  ∀ p : Progress, p.exhausted = false → p.types.keys ⊆ entities →
    Ends (fun p' => p'.exhausted = false ∧ p'.types.keys ⊆ entities) (a p)

/-! ## Merging unions -/

namespace TypeMap
variable {entities : List Typeable}

/-- What holds of the merged types and is kept by each insertion holds after a branch is merged. -/
theorem mergeBranch_keeps {P : TypeMap → Prop} {schema : Schema} {seed merged branch made : TypeMap}
    (hinsert : ∀ entry ∈ branch.entries, ∀ types, P types → P (types.insert entry.1 entry.2))
    (hmerged : P merged) (hrun : mergeBranch schema seed merged branch = .ok made) : P made := by
  obtain ⟨entries⟩ := branch
  induction entries generalizing merged with
  | nil =>
    cases hrun
    exact hmerged
  | cons entry entries ih =>
    rw [List.forall_mem_cons] at hinsert
    obtain ⟨next, hrest, ⟨rfl, _⟩ | ⟨rfl, _⟩⟩ := mergeBranch_cons_ok.1 hrun
    · exact ih hmerged hinsert.2 hrest
    · exact ih (hinsert.1 merged hmerged) hinsert.2 hrest

theorem keys_mergeBranch {schema : Schema} {seed merged branch made : TypeMap}
    (hmerged : merged.keys ⊆ entities) (hbranch : branch.keys ⊆ entities)
    (hrun : mergeBranch schema seed merged branch = .ok made) : made.keys ⊆ entities :=
  mergeBranch_keeps (P := fun types => types.keys ⊆ entities) (fun entry hmem _ hk =>
    keys_insert_subset hk (hbranch (List.mem_map.2 ⟨entry, hmem, rfl⟩)) entry.2) hmerged hrun

/-- What holds of the types and is kept by each insertion of an entity without a type holds after
types are taken over. -/
theorem absorb_keeps {P : TypeMap → Bool → Prop} {types merged : TypeMap}
    (hinsert : ∀ entry ∈ merged.entries, ∀ now changed, now.find? entry.1 = none → P now changed →
      P (now.insert entry.1 entry.2) true) (h : P types false) :
    P (types.absorb merged).1 (types.absorb merged).2 := by
  obtain ⟨entries⟩ := merged
  have hfold : ∀ (now : TypeMap) (changed : Bool), P now changed →
      let made := entries.foldl (fun (acc : TypeMap × Bool) (entry : Typeable × Iri) =>
        if acc.1.contains entry.1 then (acc.1, acc.2) else (acc.1.insert entry.1 entry.2, true))
        (now, changed)
      P made.1 made.2 := by
    induction entries with
    | nil => exact fun now changed h => h
    | cons entry entries ih =>
      intro now changed h
      have hrest := ih fun entry' hmem => hinsert entry' (List.mem_cons_of_mem _ hmem)
      rw [List.foldl_cons]
      split
      · exact hrest now changed h
      · rename_i hnot
        have hnone : now.find? entry.1 = none := by
          simpa [OrderedMap.contains] using hnot
        exact hrest _ true (hinsert entry List.mem_cons_self now changed hnone h)
  exact hfold types false h

/-- Taking over types for entities without any descends. -/
theorem absorb_descends (o : Ontology) {types merged : TypeMap} (hk : types.keys ⊆ entities)
    (hmerged : merged.keys ⊆ entities) :
    Descends o entities types (types.absorb merged).1 (types.absorb merged).2 := by
  refine absorb_keeps (fun entry hmem now changed hnone h => ?_) (.refl hk)
  have he : entry.1 ∈ entities := hmerged (List.mem_map.2 ⟨entry, hmem, rfl⟩)
  have hinsert : Descends o entities now (now.insert entry.1 entry.2) true :=
    .insert h.keys he (hnone ▸ o.slack_some_lt entry.2)
  have hnext := h.trans hinsert
  rwa [Bool.or_true] at hnext

theorem gather_ends (schema : Schema) {seed : TypeMap} (hseed : seed.keys ⊆ entities)
    {infers : List Inferrer} (h : ∀ infer ∈ infers, Inferrer.Converges entities infer)
    {merged : TypeMap} (hmerged : merged.keys ⊆ entities) :
    Ends (fun made => made.2 = false ∧ made.1.keys ⊆ entities)
      (gather schema seed infers merged false) := by
  induction infers generalizing merged with
  | nil => exact ⟨rfl, hmerged⟩
  | cons infer infers ih =>
    refine (h infer List.mem_cons_self { types := seed, exhausted := false } rfl hseed).bind ?_
    rintro p ⟨hp, hbranch⟩
    refine (Progress.ends_attempt hp fun made => keys_mergeBranch hmerged hbranch).bind ?_
    intro made hmade
    rw [hp]
    exact ih (fun infer' hmem => h infer' (List.mem_cons_of_mem _ hmem)) hmade

end TypeMap

/-! ## Steps -/

namespace Pass
variable {o : Ontology} {entities : List Typeable}

theorem idle_converges : idle.Converges o entities :=
  fun _ hp hk => ⟨hp, .refl hk⟩

theorem Converges.andThen {a b : Pass} (ha : a.Converges o entities) (hb : b.Converges o entities) :
    (a.andThen b).Converges o entities := by
  intro p hp hk
  refine (ha p hp hk).bind ?_
  rintro made ⟨hmade, hdown⟩
  refine (hb made.1 hmade hdown.keys).bind ?_
  rintro made' ⟨hmade', hdown'⟩
  exact ⟨hmade', hdown.trans hdown'⟩

theorem Converges.all {as : List Pass} (h : ∀ a ∈ as, Converges o entities a) :
    (Pass.all as).Converges o entities := by
  induction as with
  | nil => exact idle_converges
  | cons a as ih =>
    exact (h a List.mem_cons_self).andThen (ih fun b hb => h b (List.mem_cons_of_mem _ hb))

theorem ofRule_converges {r : Rule} (h : r.Descends o entities) :
    (ofRule r).Converges o entities := by
  intro p hp hk
  refine (Progress.ends_attempt hp fun made hrun => h p.types made.1 made.2 hk hrun).bind ?_
  intro made hdown
  exact ⟨hp, hdown⟩

theorem union_converges (schema : Schema) {infers : List Inferrer}
    (h : ∀ infer ∈ infers, Inferrer.Converges entities infer) :
    (union schema infers).Converges o entities := by
  intro p hp hk
  have hempty : (OrderedMap.empty : TypeMap).keys ⊆ entities := List.nil_subset _
  have hgather : Ends (fun made => made.2 = false ∧ made.1.keys ⊆ entities)
      (TypeMap.gather schema p.types infers .empty p.exhausted) := by
    rw [hp]
    exact TypeMap.gather_ends schema hk h hempty
  refine hgather.bind ?_
  rintro made ⟨hmade, hkeys⟩
  exact ⟨hmade, TypeMap.absorb_descends o hk hkeys⟩

/-- A rule that descends settles before rounds run out that are more than can still come. -/
theorem settle_ends {r : Rule} (h : r.Descends o entities) {rounds : Nat} {p : Progress}
    (hp : p.exhausted = false) (hk : p.types.keys ⊆ entities)
    (hrounds : p.types.slack o entities < rounds) :
    Ends (fun made => made.1.exhausted = false ∧
      TypeMap.Descends o entities p.types made.1.types made.2) (settle r rounds p) := by
  induction rounds generalizing p with
  | zero => omega
  | succ rounds ih =>
    refine (ofRule_converges h p hp hk).bind ?_
    rintro ⟨made, changed⟩ ⟨hmade, hdown⟩
    dsimp only at hmade hdown ⊢
    cases changed with
    | false => exact ⟨hmade, hdown⟩
    | true =>
      have hless : made.types.slack o entities + 1 ≤ p.types.slack o entities := hdown.slack
      refine (ih hmade hdown.keys (by omega)).bind ?_
      rintro made' ⟨hmade', hdown'⟩
      exact ⟨hmade', hdown.trans hdown'⟩

theorem Converges.iterate_ends {a : Pass} (h : a.Converges o entities) {rounds : Nat} {p : Progress}
    (hp : p.exhausted = false) (hk : p.types.keys ⊆ entities)
    (hrounds : p.types.slack o entities < rounds) :
    Ends (fun p' => p'.exhausted = false ∧ p'.types.keys ⊆ entities) (iterate a rounds p) := by
  induction rounds generalizing p with
  | zero => omega
  | succ rounds ih =>
    refine (h p hp hk).bind ?_
    rintro ⟨made, changed⟩ ⟨hmade, hdown⟩
    dsimp only at hmade hdown ⊢
    cases changed with
    | false => exact ⟨hmade, hdown.keys⟩
    | true =>
      have hless : made.types.slack o entities + 1 ≤ p.types.slack o entities := hdown.slack
      rw [hmade]
      exact ih hmade hdown.keys (by omega)

end Pass

/-! ## Scopes -/

/-- The statements and filters of the scope, at any depth, speak of the given entities only. -/
inductive Scope.Over (entities : List Typeable) : Scope → Prop where
  | mk {statements : List Statement} {filters : List Expression} {unions : List (List Scope)} :
    (∀ s ∈ statements, s.typeables ⊆ entities) → (∀ e ∈ filters, e.typeables ⊆ entities) →
      (∀ branches ∈ unions, ∀ branch ∈ branches, Over entities branch) →
      Over entities (.mk statements filters unions)

/-- The second scope is the first one or a branch in it, at any depth. -/
inductive Scope.Inside : Scope → Scope → Prop where
  | here (scope : Scope) : Inside scope scope
  | branch {statements : List Statement} {filters : List Expression} {unions : List (List Scope)}
      {branches : List Scope} {scope inner : Scope} :
    branches ∈ unions → scope ∈ branches → Inside scope inner →
      Inside (.mk statements filters unions) inner

namespace Scope
variable {entities : List Typeable}

theorem Over.inside {outer inner : Scope} (h : outer.Over entities) (hin : outer.Inside inner) :
    inner.Over entities := by
  induction hin with
  | here => exact h
  | branch hbranches hscope _ ih =>
    cases h with
    | mk _ _ hunions => exact ih (hunions _ hbranches _ hscope)

theorem Over.append {a b : Scope} (ha : a.Over entities) (hb : b.Over entities) :
    (a ++ b).Over entities := by
  cases ha with
  | mk hs he hu =>
    cases hb with
    | mk hs' he' hu' =>
      refine .mk ?_ ?_ ?_
      · exact fun s hmem => (List.mem_append.1 hmem).elim (hs s) (hs' s)
      · exact fun e hmem => (List.mem_append.1 hmem).elim (he e) (he' e)
      · exact fun bs hmem => (List.mem_append.1 hmem).elim (hu bs) (hu' bs)

/-- The scope of a group speaks of the entities of the group. -/
theorem over_ofGroup {g : Group} (h : g.typeables ⊆ entities) : (ofGroup g).Over entities := by
  induction g using Group.by_patterns with
  | nil => exact .mk (by simp) (by simp) (by simp)
  | statement s ps ih =>
    rw [Group.typeables_statement, List.append_subset] at h
    rw [ofGroup, ofPattern]
    exact Over.append (.mk (by simpa using h.1) (by simp) (by simp)) (ih h.2)
  | optional g ps ihg ih =>
    rw [Group.typeables_optional, List.append_subset] at h
    rw [ofGroup, ofPattern]
    exact (ihg h.1).append (ih h.2)
  | union gs ps ihg ih =>
    rw [Group.typeables_union, List.append_subset] at h
    rw [ofGroup, ofPattern]
    refine Over.append (.mk (by simp) (by simp) ?_) (ih h.2)
    intro branches hbranches branch hbranch
    rw [List.mem_singleton.1 hbranches, ofGroups_eq] at hbranch
    obtain ⟨g, hg, rfl⟩ := List.mem_map.1 hbranch
    exact ihg g hg fun e he => h.1 (List.mem_flatMap.2 ⟨g, hg, he⟩)
  | filter e ps ih =>
    rw [Group.typeables_filter, List.append_subset] at h
    rw [ofGroup, ofPattern]
    exact Over.append (.mk (by simp) (by simpa using h.1) (by simp)) (ih h.2)
  | minus g ps ihg ih =>
    rw [Group.typeables_minus, List.append_subset] at h
    rw [ofGroup, ofPattern]
    exact (ihg h.1).append (ih h.2)

end Scope

namespace Typist

/-- Unions converge where their branches do. -/
theorem unions_converge {t : Typist} {entities : List Typeable} {rounds : Nat} (o : Ontology)
    {unions : List (List Scope)} (h : ∀ branches ∈ unions, ∀ branch ∈ branches,
      Inferrer.Converges entities (t.inferScope rounds branch)) :
    (Pass.all (unions.map fun branches =>
      .union t.schema (branches.map (t.inferScope rounds)))).Converges o entities := by
  refine .all fun a ha => ?_
  obtain ⟨branches, hbranches, rfl⟩ := List.mem_map.1 ha
  refine Pass.union_converges t.schema fun infer hinfer => ?_
  obtain ⟨branch, hbranch, rfl⟩ := List.mem_map.1 hinfer
  exact h branches hbranches branch hbranch

variable {defs : Definitions} {t : Typist} (h : Ontology.ofDefinitions defs = .ok t.ontology)
  {entities : List Typeable}
include h

theorem rules_descend {statements : List Statement} {filters : List Expression}
    (hs : ∀ s ∈ statements, s.typeables ⊆ entities) (he : ∀ e ∈ filters, e.typeables ⊆ entities) :
    (Rule.all (statements.map t.statement ++ filters.map t.filter)).Descends t.ontology
      entities := by
  refine .all fun r hr => ?_
  rcases List.mem_append.1 hr with hr | hr
  · obtain ⟨s, hmem, rfl⟩ := List.mem_map.1 hr
    exact statement_descends h (hs s hmem)
  · obtain ⟨e, hmem, rfl⟩ := List.mem_map.1 hr
    exact filter_descends h (he e hmem)

variable {rounds : Nat} (hrounds : entities.length * (t.ontology.classes.length + 1) < rounds)
include hrounds

theorem round_converges {statements : List Statement} {filters : List Expression} {unions : Pass}
    (hs : ∀ s ∈ statements, s.typeables ⊆ entities) (he : ∀ e ∈ filters, e.typeables ⊆ entities)
    (hu : unions.Converges t.ontology entities) :
    (t.round rounds statements filters unions).Converges t.ontology entities := by
  have hclasses : (Rule.all (statements.map t.subjectClass)).Descends t.ontology entities := by
    refine .all fun r hr => ?_
    obtain ⟨s, hmem, rfl⟩ := List.mem_map.1 hr
    exact subjectClass_descends h (hs s hmem)
  have hsettle : (Pass.settle (Rule.all (statements.map t.statement ++ filters.map t.filter))
      rounds).Converges t.ontology entities :=
    fun p hp hk => Pass.settle_ends (rules_descend h hs he) hp hk
      ((p.types.slack_le t.ontology entities).trans_lt hrounds)
  intro p hp hk
  refine ((hsettle.andThen hu) p hp hk).bind ?_
  rintro ⟨made, changed⟩ ⟨hmade, hdown⟩
  dsimp only at hmade hdown ⊢
  split
  · rename_i hchanged
    exact ⟨hmade, hchanged ▸ hdown⟩
  · rename_i hchanged
    -- Nothing has changed yet, so whether the last rule changed something is all that counts.
    rw [Bool.not_eq_true] at hchanged
    subst hchanged
    refine (Pass.ofRule_converges hclasses made hmade hdown.keys).mono ?_
    rintro ⟨made', changed⟩ ⟨hmade', hdown'⟩
    refine ⟨hmade', ?_⟩
    have htrans := hdown.trans hdown'
    rwa [Bool.false_or] at htrans

/-- **With enough rounds no scope runs out of them.** -/
theorem inferScope_converges {scope : Scope} (hover : scope.Over entities) :
    Inferrer.Converges entities (t.inferScope rounds scope) := by
  induction scope using Scope.by_unions with
  | mk statements filters unions ih =>
    cases hover with
    | mk hs he hu =>
      rw [inferScope_mk]
      intro p hp hk
      refine (round_converges h hrounds hs he ?_).iterate_ends hp hk
        ((p.types.slack_le t.ontology entities).trans_lt hrounds)
      refine unions_converge t.ontology fun branches hbranches branch hbranch => ?_
      exact ih branches hbranches branch hbranch (hu branches hbranches branch hbranch)

end Typist

theorem Ends.not_ranOut {α : Type} {good : α → Prop} {flag : α → Bool} {x : Except Halt α}
    (h : Ends good x) (hgood : ∀ a, good a → flag a = false) : ranOut flag x = false := by
  cases x with
  | ok a => exact hgood a h
  | error halt => exact h

/-! ## Enough rounds -/

/-- Rounds that are enough for a query, by the number of entities in its body and of classes. -/
def Query.enoughRounds (q : Query) (o : Ontology) : Nat :=
  q.body.typeables.eraseDups.length * (o.classes.length + 2) + 1

theorem Query.inferTypes_congr (q : Query) (o : Ontology) {rounds rounds' : Nat}
    (h : Typist.infer ⟨o, q.schema⟩ rounds q.body = Typist.infer ⟨o, q.schema⟩ rounds' q.body) :
    q.inferTypes o rounds = q.inferTypes o rounds' := by
  simp only [Query.inferTypes, h]

/-- **Type inference converges, and its bound does not show.** Take a query and an ontology that was
built from definitions. With enough rounds no scope of the body, at any depth and from any types of
the entities of the body, runs out of them; so the inference of the body does not, and it gives the
same types or the same fault whatever the bound. And whenever a run with some bound did not run out,
a run with more rounds ends the same way. -/
theorem inference_converges {defs : Definitions} {o : Ontology}
    (hbuild : Ontology.build defs = .ok o) (q : Query) :
    let t : Typist := { ontology := o, schema := q.schema }
    (∀ rounds ≥ q.enoughRounds o,
      (∀ scope, (Scope.ofGroup q.body).Inside scope → ∀ seed : TypeMap,
        seed.keys ⊆ q.body.typeables →
          ranOut (·.exhausted) (t.inferScope rounds scope { types := seed, exhausted := false }) =
            false) ∧
      ranOut (·.exhausted) (t.infer rounds q.body) = false ∧
      ∀ rounds' ≥ q.enoughRounds o, q.inferTypes o rounds' = q.inferTypes o rounds) ∧
    ∀ rounds, ranOut (·.exhausted) (t.infer rounds q.body) = false → ∀ rounds' ≥ rounds,
      t.infer rounds' q.body = t.infer rounds q.body ∧
        q.inferTypes o rounds' = q.inferTypes o rounds := by
  intro t
  have hbuilt : Ontology.ofDefinitions (.skeleton ++ defs) = .ok t.ontology := hbuild
  have hscope : ∀ rounds ≥ q.enoughRounds o, ∀ scope, (Scope.ofGroup q.body).Inside scope →
      ∀ seed : TypeMap, seed.keys ⊆ q.body.typeables →
        ranOut (·.exhausted) (t.inferScope rounds scope { types := seed, exhausted := false }) =
          false := by
    intro rounds hrounds scope hinside seed hseed
    have hsub : q.body.typeables ⊆ q.body.typeables.eraseDups := fun e he => List.mem_eraseDups.2 he
    have hover : scope.Over q.body.typeables.eraseDups := (Scope.over_ofGroup hsub).inside hinside
    have henough : q.body.typeables.eraseDups.length * (o.classes.length + 1) < rounds := by
      refine Nat.lt_of_lt_of_le (Nat.lt_succ_of_le ?_) hrounds
      exact Nat.mul_le_mul_left _ (Nat.le_succ _)
    have hends := Typist.inferScope_converges hbuilt henough hover
      { types := seed, exhausted := false } rfl (List.Subset.trans hseed hsub)
    exact hends.not_ranOut fun _ hgood => hgood.1
  have hstable : ∀ rounds, ranOut (·.exhausted) (t.infer rounds q.body) = false →
      ∀ rounds' ≥ rounds, t.infer rounds' q.body = t.infer rounds q.body :=
    fun rounds hout rounds' hle => t.infer_eq_of_le hle q.body hout
  have hcalm : ∀ rounds ≥ q.enoughRounds o,
      ranOut (·.exhausted) (t.infer rounds q.body) = false := by
    intro rounds hrounds
    refine hscope (max rounds 1) (le_trans hrounds (le_max_left _ _)) _ (.here _) .empty ?_
    exact List.nil_subset _
  refine ⟨?_, ?_⟩
  · intro rounds hrounds
    refine ⟨hscope rounds hrounds, hcalm rounds hrounds, ?_⟩
    intro rounds' hrounds'
    apply q.inferTypes_congr o
    rcases Nat.le_total rounds rounds' with hle | hle
    · exact hstable rounds (hcalm rounds hrounds) rounds' hle
    · exact (hstable rounds' (hcalm rounds' hrounds') rounds hle).symm
  · intro rounds hout rounds' hle
    have hsame := hstable rounds hout rounds' hle
    exact ⟨hsame, q.inferTypes_congr o hsame⟩

/-- Over the skeleton, a branch that asks for values converges by itself, and with it the body. -/
theorem inference_converges_branch :
    let asked : Statement := ⟨.var ⟨"r"⟩, .ofIri Base.hasValue, .var ⟨"v"⟩⟩
    let q : Query :=
      { schema := .complex, template := [asked], body := [.union [[.statement asked], []]] }
    ∃ o, Ontology.build {} = .ok o ∧
      let t : Typist := { ontology := o, schema := .complex }
      (Scope.ofGroup q.body).Inside (Scope.ofGroup [.statement asked]) ∧
      ranOut (·.exhausted) (t.inferScope (q.enoughRounds o) (Scope.ofGroup [.statement asked])
        { types := .empty, exhausted := false }) = false ∧
      q.inferTypes o (q.enoughRounds o + 5) = q.inferTypes o (q.enoughRounds o) := by
  intro asked q
  obtain ⟨o, hbuild⟩ := Ontology.build_skeleton
  have hinside : (Scope.ofGroup q.body).Inside (Scope.ofGroup [.statement asked]) :=
    .branch List.mem_cons_self List.mem_cons_self (.here _)
  obtain ⟨hscopes, _, hsame⟩ := (inference_converges hbuild q).1 (q.enoughRounds o) (Nat.le_refl _)
  refine ⟨o, hbuild, hinside, hscopes _ hinside .empty (List.nil_subset _), ?_⟩
  exact hsame _ (Nat.le_add_right _ 5)

end OntoQuery
