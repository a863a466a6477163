import OntoQuery.Proofs.Agreement
import OntoQuery.Proofs.MainResource

/-!
# The order of patterns

Two bodies with the same patterns in another order are typed alike (`inference_order_free`),
provided that the types that they propose are in order, that no predicate is a variable, and that no
union changes places with another. Without these provisos the order can decide
(`inference_depends_on_order`).
-/

namespace OntoQuery

/-! ## Bodies -/

/-- The type that a demand proposes. -/
def Demand.proposal? : Demand → Option Iri
  | .typed _ type => some type
  | _ => none

namespace Typist
variable {t : Typist}

/-- The types that a body proposes for its entities. -/
def proposals (t : Typist) (body : Group) : List Iri :=
  ((Scope.ofGroup body).demands t).filterMap Demand.proposal?

theorem follow_not_mem_typed? (e : Option Typeable) (type : Option Iri) (v : Variable)
    (object : Entity) : .follow v object ∉ Demand.typed? e type := by
  cases e <;> cases type <;> simp [Demand.typed?]

theorem predicate_of_follow {s : Statement} {v : Variable} {object : Entity}
    (h : .follow v object ∈ t.statementDemands s) : s.predicate = .var v := by
  unfold statementDemands at h
  split at h
  · split at h
    · exact absurd h (follow_not_mem_typed? _ _ v object)
    · cases h
  · split at h
    · rename_i p _
      unfold propertyDemands at h
      split at h
      · cases h
      · split at h
        · simp at h
        · simp at h
        · simp [follow_not_mem_typed?] at h
    · rename_i w hw
      cases List.mem_singleton.1 h
      revert hw
      cases s.predicate <;> simp [Typeable.ofEntity?]
    · cases h

theorem follow_not_mem_filterDemands (e : Expression) (v : Variable) (object : Entity) :
    .follow v object ∉ t.filterDemands e := by
  fun_induction t.filterDemands e with
  | case1 left right ihl ihr | case2 left right ihl ihr => simp [ihl, ihr]
  | case3 inner ih => exact ih
  | case4 a op b =>
    unfold comparisonDemands
    split <;> (try split) <;> (try split) <;> simp [follow_not_mem_typed?]
  | case5 e es | case6 e es => exact follow_not_mem_typed? _ _ v object
  | case7 e es ih => exact ih
  | case8 e => simp

theorem demands_among {body : Group}
    (hvars : ∀ s ∈ body.statements, s.predicate.isVariable = false) :
    ∀ d ∈ (Scope.ofGroup body).demands t, d.Among (t.proposals body) := by
  intro d hd
  cases d with
  | refuse fault => trivial
  | typed e type => exact List.mem_filterMap.2 ⟨_, hd, rfl⟩
  | same v w => trivial
  | follow v object =>
    rcases Scope.demands_ofGroup t hd with ⟨s, hs, hd⟩ | ⟨e, hd⟩
    · have hvar := hvars s hs
      rw [predicate_of_follow hd] at hvar
      cases hvar
    · exact absurd hd (follow_not_mem_filterDemands e v object)

/-- Bodies with the same patterns in another order are inferred alike. -/
theorem infer_agree {defs : Definitions} (h : Ontology.ofDefinitions defs = .ok t.ontology)
    {body body' : Group} (hperm : body.Permuted Pattern.Apart body')
    (hvars : ∀ s ∈ body.statements, s.predicate.isVariable = false)
    (horder : t.ontology.Orderly (t.proposals body)) {rounds : Nat}
    (hout : ranOut (·.exhausted) (t.infer rounds body) = false)
    (hout' : ranOut (·.exhausted) (t.infer rounds body') = false) :
    Concord (fun p p' : Progress => p.types.Same p'.types) (t.infer rounds body)
      (t.infer rounds body') := by
  -- With more rounds the runs are the same, so there may be enough of them.
  let more := max rounds (body.typeables.length * (t.ontology.classes.length + 1) + 1)
  have hmore : rounds ≤ more := Nat.le_max_left _ _
  rw [← t.infer_eq_of_le hmore body hout, ← t.infer_eq_of_le hmore body' hout']
  have henough : body.typeables.length * (t.ontology.classes.length + 1) < max more 1 := by omega
  have hagree := inferScope_agree h henough horder (Scope.rearranged_of_permuted hperm)
    (Scope.over_ofGroup (List.Subset.refl _)) (demands_among hvars)
  exact (hagree _ _ ⟨rfl, rfl, TypeMap.empty_twins _ _⟩).imp fun _ _ htwins => htwins.types.same

end Typist

/-! ## What is told of the entities -/

namespace Roles
variable {g g' : Group} (h : g.statements.Perm g'.statements)
include h

theorem mem_of_perm (e : Typeable) :
    (e ∈ (ofGroup g).order ↔ e ∈ (ofGroup g').order) ∧
    (e ∈ (ofGroup g).predicates ↔ e ∈ (ofGroup g').predicates) ∧
    (e ∈ (ofGroup g).others ↔ e ∈ (ofGroup g').others) := by
  have hplaces := h.flatMap_right ofStatement
  simp only [ofGroup, List.mem_eraseDups, List.mem_map, List.mem_filter, hplaces.mem_iff, and_self]

theorem contains_predicates (e : Typeable) :
    (ofGroup g).predicates.contains e = (ofGroup g').predicates.contains e :=
  Bool.eq_iff_iff.2 (by simpa using (mem_of_perm h e).2.1)

theorem conflict?_of_perm (hnone : (ofGroup g).conflict? = none) :
    (ofGroup g').conflict? = none := by
  rw [conflict?_eq_none] at hnone ⊢
  intro e he hother
  exact hnone e ((mem_of_perm h e).2.1.2 he) ((mem_of_perm h e).2.2.2 hother)

end Roles

namespace Typist
variable {t : Typist}

theorem describe_congr {roles roles' : Roles} {types types' : TypeMap} {e : Typeable}
    (hroles : roles.predicates.contains e = roles'.predicates.contains e)
    (htypes : types.find? e = types'.find? e) :
    t.describe roles types e = t.describe roles' types' e := by
  unfold describe
  rw [hroles, htypes]

/-- The descriptions of the same entities in another order tell the same. -/
theorem described_agree {describe : Typeable → Except Fault (Option (Typeable × TypeInfo))}
    (hkey : ∀ e told, describe e = .ok (some told) → told.1 = e) {order order' : List Typeable}
    (hmem : ∀ e, e ∈ order ↔ e ∈ order') :
    Concord (fun infos infos' => ∀ e,
      (infos.filterMap id).lookup e = (infos'.filterMap id).lookup e)
      (order.mapM describe) (order'.mapM describe) := by
  have succeeds : ∀ {order order' : List Typeable} {infos}, (∀ e, e ∈ order ↔ e ∈ order') →
      order.mapM describe = .ok infos → ∃ infos', order'.mapM describe = .ok infos' := by
    intro order order' infos hmem h
    refine exists_mapM_ok fun e he => ?_
    obtain ⟨info, _, hinfo⟩ := exists_of_mem_left (forall₂_of_mapM_ok h) ((hmem e).2 he)
    exact ⟨info, hinfo⟩
  cases hrun : order.mapM describe with
  | ok infos =>
    obtain ⟨infos', hrun'⟩ := succeeds hmem hrun
    rw [hrun']
    refine .ok fun e => Option.ext fun info => ?_
    rw [lookup_described hkey (forall₂_of_mapM_ok hrun),
      lookup_described hkey (forall₂_of_mapM_ok hrun'), hmem e]
  | error fault =>
    cases hrun' : order'.mapM describe with
    | error fault' => exact .error fault fault'
    | ok infos' =>
      obtain ⟨_, hrun''⟩ := succeeds (fun e => (hmem e).symm) hrun'
      cases hrun.symm.trans hrun''

end Typist

/-- Both queries fail to be typed, or the same is told of every entity. -/
def Query.TypedAlike (o : Ontology) (rounds : Nat) (q q' : Query) : Prop :=
  Concord (fun types types' : Types => ∀ e, types.find? e = types'.find? e) (q.inferTypes o rounds)
    (q'.inferTypes o rounds)

/-- **The order of patterns does not matter for types that are in order.** Take a body in which no
predicate is a variable and whose proposed types are in order, and another one with its patterns
permuted, at any depth, without a union that changes places with another. If neither runs out of
rounds, then both cannot be typed, or both can and the same is told of every entity. -/
theorem inference_order_free {defs : Definitions} {o : Ontology}
    (hbuild : Ontology.build defs = .ok o) (q : Query) {body' : Group}
    (hperm : q.body.Permuted Pattern.Apart body')
    (hvars : ∀ s ∈ q.body.statements, s.predicate.isVariable = false)
    (horder : o.Orderly (Typist.proposals ⟨o, q.schema⟩ q.body)) {rounds : Nat}
    (hout : ranOut (·.exhausted) (Typist.infer ⟨o, q.schema⟩ rounds q.body) = false)
    (hout' : ranOut (·.exhausted) (Typist.infer ⟨o, q.schema⟩ rounds body') = false) :
    q.TypedAlike o rounds { q with body := body' } := by
  have hstatements := hperm.statements_perm
  unfold Query.TypedAlike Query.inferTypes
  dsimp only
  cases hconflict : (Roles.ofGroup q.body).conflict? with
  | some e =>
    cases hconflict' : (Roles.ofGroup body').conflict? with
    | some e' => exact .error _ _
    | none => cases hconflict.symm.trans (Roles.conflict?_of_perm hstatements.symm hconflict')
  | none =>
    rw [Roles.conflict?_of_perm hstatements hconflict]
    have hinfer := Typist.infer_agree (t := ⟨o, q.schema⟩) hbuild hperm hvars horder hout hout'
    refine (hinfer.mapError _ _).bind fun p p' hsame => ?_
    have hdescribe : Typist.describe ⟨o, q.schema⟩ (Roles.ofGroup q.body) p.types =
        Typist.describe ⟨o, q.schema⟩ (Roles.ofGroup body') p'.types :=
      funext fun e => Typist.describe_congr (Roles.contains_predicates hstatements e) (hsame e)
    rw [hdescribe]
    refine (Typist.described_agree (fun e told => Typist.describe_key)
      fun e => (Roles.mem_of_perm hstatements e).1).bind fun infos infos' hinfos => ?_
    exact .ok hinfos

/-- Values that a branch knows to be texts, with the patterns permuted in the body and in the
branch. -/
theorem inference_order_free_union :
    let asked : Pattern := .triple (.var ⟨"r"⟩) (.ofIri Base.hasValue) (.var ⟨"v"⟩)
    let text : Pattern := .triple (.var ⟨"v"⟩) (.ofIri Rdf.type) (.ofIri Base.textValue)
    let link : Pattern := .triple (.var ⟨"r"⟩) (.ofIri Base.hasLinkTo) (.var ⟨"s"⟩)
    let q : Query :=
      { schema := .complex, template := [], body := [asked, .union [[text, link], []]] }
    let body' : Group := [.union [[link, text], []], asked]
    ∃ o, Ontology.build {} = .ok o ∧ o.Orderly (Typist.proposals ⟨o, .complex⟩ q.body) ∧
      (q.inferTypes o 32).isOk = true ∧ q.TypedAlike o 32 { q with body := body' } := by
  intro asked text link q body'
  have hrun : ((Ontology.build {}).toOption.map fun o =>
      decide (o.Orderly (Typist.proposals ⟨o, .complex⟩ q.body) ∧ (q.inferTypes o 32).isOk = true ∧
        ranOut (·.exhausted) (Typist.infer ⟨o, .complex⟩ 32 q.body) = false ∧
        ranOut (·.exhausted) (Typist.infer ⟨o, .complex⟩ 32 body') = false)) = some true := by
    decide +kernel
  obtain ⟨o, hbuild, horder, hok, hout, hout'⟩ := Ontology.exists_built hrun
  have hperm : q.body.Permuted Pattern.Apart body' :=
    .trans (.swap [] (.inl rfl)) (.union [] [[]] [asked] (.swap [] (.inl rfl)))
  exact ⟨o, hbuild, horder, hok, inference_order_free hbuild q hperm (by decide) horder hout hout'⟩

theorem Query.not_typedAlike {o : Ontology} {rounds : Nat} {q q' : Query} (e : Typeable)
    (h : (q.inferTypes o rounds).toOption.map (·.find? e) ≠
      (q'.inferTypes o rounds).toOption.map (·.find? e)) : ¬ q.TypedAlike o rounds q' := by
  intro halike
  apply h
  unfold TypedAlike at halike
  generalize q.inferTypes o rounds = x at halike
  generalize q'.inferTypes o rounds = y at halike
  cases halike with
  | ok hsame => exact congrArg some (hsame e)
  | error fault fault' => rfl

/-- A body and another one with the patterns permuted, neither of which runs out of rounds, that are
not typed alike. -/
def Group.OrderDecides (o : Ontology) (body body' : Group) : Prop :=
  let q : Query := { schema := .internal, template := [], body }
  body.Permuted (fun _ _ => True) body' ∧
    ranOut (·.exhausted) (Typist.infer ⟨o, .internal⟩ 32 body) = false ∧
    ranOut (·.exhausted) (Typist.infer ⟨o, .internal⟩ 32 body') = false ∧
    ¬ q.TypedAlike o 32 { q with body := body' }

/-- Neither of the bodies runs out of rounds, and they tell different things of the entity. -/
def Group.DifferAt (o : Ontology) (body body' : Group) (e : Typeable) : Prop :=
  ranOut (·.exhausted) (Typist.infer ⟨o, .internal⟩ 32 body) = false ∧
  ranOut (·.exhausted) (Typist.infer ⟨o, .internal⟩ 32 body') = false ∧
  (Query.inferTypes { schema := .internal, template := [], body } o 32).toOption.map (·.find? e) ≠
    (Query.inferTypes { schema := .internal, template := [], body := body' } o 32).toOption.map
      (·.find? e)

instance (o : Ontology) (body body' : Group) (e : Typeable) : Decidable (body.DifferAt o body' e) :=
  inferInstanceAs (Decidable (_ ∧ _ ∧ _))

theorem Group.DifferAt.orderDecides {o : Ontology} {body body' : Group} {e : Typeable}
    (h : body.DifferAt o body' e) (hperm : body.Permuted (fun _ _ => True) body') :
    body.OrderDecides o body' :=
  ⟨hperm, h.1, h.2.1, Query.not_typedAlike e h.2.2⟩

/-- The order of patterns can decide. A class that is below two others is found if it comes before
the second of them, and else these conflict; a property variable has the type that its object has
when it is first looked at; and of two unions the first one gives an entity its type. -/
theorem inference_depends_on_order :
    let house : Iri := "http://www.knora.org/ontology/0001/house#House"
    let garden : Iri := "http://www.knora.org/ontology/0001/house#Garden"
    let pergola : Iri := "http://www.knora.org/ontology/0001/house#Pergola"
    let classes : Definitions :=
      { classes := [⟨garden, [Base.resource], .empty⟩, ⟨house, [Base.resource], .empty⟩,
        ⟨pergola, [garden, house], .empty⟩] }
    let isA (class_ : Iri) : Pattern := .triple (.var ⟨"x"⟩) (.ofIri Rdf.type) (.ofIri class_)
    let asked : Pattern := .triple (.var ⟨"s"⟩) (.var ⟨"p"⟩) (.var ⟨"x"⟩)
    ∃ o, Ontology.build classes = .ok o ∧
      Group.OrderDecides o [isA garden, isA house, isA pergola]
        [isA garden, isA pergola, isA house] ∧
      Group.OrderDecides o [isA Base.value, asked, isA Base.textValue]
        [isA Base.value, isA Base.textValue, asked] ∧
      Group.OrderDecides o [.union [[isA Base.value]], .union [[isA Base.textValue]]]
        [.union [[isA Base.textValue]], .union [[isA Base.value]]] := by
  intro house garden pergola classes isA asked
  have hrun : ((Ontology.build classes).toOption.map fun o => decide (
      Group.DifferAt o [isA garden, isA house, isA pergola] [isA garden, isA pergola, isA house]
        (.var ⟨"x"⟩) ∧
      Group.DifferAt o [isA Base.value, asked, isA Base.textValue]
        [isA Base.value, isA Base.textValue, asked] (.var ⟨"p"⟩) ∧
      Group.DifferAt o [.union [[isA Base.value]], .union [[isA Base.textValue]]]
        [.union [[isA Base.textValue]], .union [[isA Base.value]]] (.var ⟨"x"⟩))) = some true := by
    decide +kernel
  obtain ⟨o, hbuild, hclasses, hproperty, hunions⟩ := Ontology.exists_built hrun
  exact ⟨o, hbuild, hclasses.orderDecides (.cons _ (.swap [] trivial)),
    hproperty.orderDecides (.cons _ (.swap [] trivial)), hunions.orderDecides (.swap [] trivial)⟩

end OntoQuery
