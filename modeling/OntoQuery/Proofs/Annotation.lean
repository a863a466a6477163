import OntoQuery.Proofs.Redundancy
import OntoQuery.Proofs.ShownTypes
import OntoQuery.Proofs.TemplateVariables

/-!
# Variables annotated with their own types

A statement that gives a variable the type that is told of it should change nothing. It changes
nothing (`annotation_changes_nothing`) if the type is told under the name under which it is stored,
and if what stands outside unions settles the type of the variable without being disturbed: the
annotation adds one demand to the outermost scope, and the demand brings nothing new there.

In the simple schema the classes of six kinds of values are told as datatypes of XML Schema, which
read as the classes again, and those of the other seven are not (`Typist.refine_shownType_iff`). So
there the annotation is refused. Elsewhere, too, it can change something (`annotation_matters`):
where only an alternative of a union gives the variable its type, where a datatype comes before a
class above the class of its values, and where a property variable takes over what its object has so
far.
-/

namespace OntoQuery

/-! ## Scopes -/

/-- The statement that a variable is of a type. -/
def Statement.typing (v : Variable) (type : Iri) : Statement :=
  ⟨.var v, .ofIri Rdf.type, .ofIri type⟩

/-- What the statements and filters of a body that stand outside unions demand. -/
def Typist.outerDemands (t : Typist) (body : Group) : List Demand :=
  t.demands (Scope.ofGroup body).statements (Scope.ofGroup body).filters

namespace Typist
variable {t : Typist}

theorem demands_annotated (statements statements' : List Statement) (filters : List Expression)
    (v : Variable) (type : Iri) :
    t.demands (statements ++ .typing v type :: statements') filters =
      statements.flatMap t.statementDemands ++
        .typed (.var v) type.toInternal :: t.demands statements' filters := by
  have hown : t.statementDemands (.typing v type) = [.typed (.var v) type.toInternal] := rfl
  rw [demands, List.flatMap_append, List.flatMap_cons, hown, List.append_assoc]
  rfl

/-- An annotation tells nothing of property variables. -/
theorem classes_annotated (statements statements' : List Statement) (v : Variable) (type : Iri) :
    Rule.all ((statements ++ statements').map t.subjectClass) =
      Rule.all ((statements ++ .typing v type :: statements').map t.subjectClass) := by
  have hown : t.subjectClass (.typing v type) = Rule.idle := rfl
  rw [List.map_append, List.map_append, List.map_cons, hown, Rule.all_append,
    Rule.all_append, Rule.all, Rule.idle_andThen]

/-- **An annotation with a type that keeps changes nothing**, if the statements and filters of a
scope give the variable its type without the unions, and if the annotation does not disturb them. -/
theorem inferScope_annotated {defs : Definitions} (h : Ontology.ofDefinitions defs = .ok t.ontology)
    {statements statements' : List Statement} {filters : List Expression}
    {unions : List (List Scope)} {rounds : Nat} {p rested : Progress} {changed : Bool}
    (hrun : t.inferScope rounds (.mk (statements ++ statements') filters unions)
      ⟨.empty, false⟩ = .ok p)
    (hcalm : p.exhausted = false)
    (hrested : Pass.settle (t.imposeAll (t.demands (statements ++ statements') filters)) rounds
      ⟨.empty, false⟩ = .ok (rested, changed))
    {v : Variable} {found type : Iri} (hp : p.types.find? (.var v) = some found)
    (hfound : rested.types.find? (.var v) = some found)
    (hu : t.Undisturbed (statements.flatMap t.statementDemands) (t.demands statements' filters)
      rested.types (.var v) found type.toInternal)
    (hkeep : t.ontology.refine found type.toInternal = .keep)
    (hback : type.toInternal = found ∨ t.ontology.refine type.toInternal found = .replace) :
    ∃ p', t.inferScope rounds (.mk (statements ++ .typing v type :: statements') filters unions)
      ⟨.empty, false⟩ = .ok p' ∧ p.Reordered p' := by
  have hdemands : t.demands (statements ++ statements') filters =
      statements.flatMap t.statementDemands ++ t.demands statements' filters := by
    rw [demands, List.flatMap_append, List.append_assoc]
    rfl
  have hdemands' := t.demands_annotated statements statements' filters v type
  have hunions := Pass.Faithful.all (t.unions_faithful rounds unions)
  have hextensional :=
    t.unions_extensional rounds fun _ (_ : _ ∈ unions) branch _ =>
      t.inferScope_extensional rounds branch
  have hecho : (t.imposeAll (t.demands (statements ++ statements') filters)).Echoes (.var v) found
      (t.imposeAll (t.demands (statements ++ .typing v type :: statements') filters)) := by
    rw [hdemands, hdemands']
    exact imposeAll_echoes h hkeep
  rw [inferScope_mk] at hrun ⊢
  have hround := @round_faithful t rounds (statements ++ statements') filters _ hunions
  obtain ⟨n, middle, _, hn, hfirst, hout, hends⟩ := Pass.iterate_ok hrun hcalm
  -- The rules settle with a change, so that the first round ends with the merged unions.
  obtain rfl := (Pass.settle_faithful (t.imposeAll_refines _) rounds).moved hrested rfl hfound
  obtain ⟨merged, hmerged⟩ := round_settled_ok hrested hfirst
  have hquiet : rested.exhausted = false := by
    by_contra hflag
    have hkeeps := (hunions.flag rested).keeps (by simpa using hflag)
    rw [hmerged] at hkeeps
    cases hout.symm.trans hkeeps
  obtain ⟨rested', hrested', hsame⟩ :=
    Pass.settle_further h (hdemands ▸ hrested) hquiet hfound hu hkeep hback
  rw [← hdemands'] at hrested'
  obtain ⟨⟨middle', _⟩, hmerged', hsame', rfl⟩ :=
    (hextensional rested rested' hsame).exists_right hmerged
  have hmiddle :=
    TypeMap.find?_between h (hunions.refines hmerged) (hround.iterate_below_first hends) hfound hp
  exact Pass.iterate_echoes_of_first h hround
    (round_echoes h hunions hecho (t.classes_annotated statements statements' v type))
    (t.round_extensional rounds _ filters hextensional) (round_of_settled hrested hmerged)
    (round_of_settled hrested' hmerged') hsame' hrun hcalm hmiddle hp

end Typist

/-! ## Bodies -/

namespace Scope

theorem ofGroup_append (g g' : Group) : ofGroup (g ++ g') = ofGroup g ++ ofGroup g' := by
  induction g with
  | nil =>
    change ofGroup g' = empty ++ ofGroup g'
    cases ofGroup g'
    rfl
  | cons p ps ih => rw [List.cons_append, ofGroup, ofGroup, ih, append_assoc]

end Scope

/-- What stands outside unions settles the type of a variable. Where it first comes to rest, the
variable has a type; it is the one that the variable has in the end; and demanding the candidate of
it between the two parts of the body does not disturb this. -/
def Typist.Settles (t : Typist) (rounds : Nat) (pre post : Group) (v : Variable) (candidate : Iri) :
    Prop :=
  ∃ rested changed whole type,
    Pass.settle (t.imposeAll (t.outerDemands (pre ++ post))) (max rounds 1) ⟨.empty, false⟩ =
      .ok (rested, changed) ∧
    t.infer rounds (pre ++ post) = .ok whole ∧ rested.types.find? (.var v) = some type ∧
    whole.types.find? (.var v) = some type ∧
    t.Undisturbed ((Scope.ofGroup pre).statements.flatMap t.statementDemands)
      (t.demands (Scope.ofGroup post).statements ((Scope.ofGroup (pre ++ post)).filters))
      rested.types (.var v) type candidate

/-- A body comes to the same types with a variable annotated whose type is settled, under the name
under which the type is told. -/
theorem Typist.infer_annotated {t : Typist} {defs : Definitions}
    (h : Ontology.ofDefinitions defs = .ok t.ontology)
    (hplain : t.schema = .simple → ∀ kind : ValueKind, t.ontology.class? kind.simpleDatatype = none)
    {rounds : Nat} {pre post : Group} {v : Variable} {type : Iri} (hstored : type.toInternal = type)
    (hsettles : t.Settles rounds pre post v type) {p : Progress}
    (hrun : t.infer rounds (pre ++ post) = .ok p) (hcalm : p.exhausted = false)
    (hshown : (p.types.find? (.var v)).map t.shownType = some type) :
    ∃ p', t.infer rounds (pre ++ .statement (.typing v type) :: post) = .ok p' ∧
      p.types.Same p'.types := by
  obtain ⟨rested, changed, _, found, hrested, hwhole, hfound, hlast, hu⟩ := hsettles
  cases hrun.symm.trans hwhole
  rw [hlast] at hshown
  obtain rfl : t.shownType found = type := Option.some.inj hshown
  obtain ⟨hkeep, hback⟩ := refine_shownType hplain hstored
  rw [← hstored] at hkeep hback hu
  unfold infer at hrun ⊢
  unfold outerDemands at hrested
  rw [Scope.ofGroup_append] at hrun hrested hu ⊢
  rw [Scope.ofGroup]
  revert hrun hrested hu
  cases Scope.ofGroup pre with
  | mk statements filters unions =>
    cases Scope.ofGroup post with
    | mk statements' filters' unions' =>
      intro hrun hrested hu
      obtain ⟨p', hp', hsame⟩ :=
        inferScope_annotated h hrun hcalm hrested hlast hfound hu hkeep hback
      exact ⟨p', hp', hsame.types.same⟩

/-! ## Queries -/

namespace Roles
variable {pre post : Group} {v : Variable} {type : Iri}

theorem mem_annotated (e : Typeable) :
    (e ∈ (ofGroup (pre ++ .statement (.typing v type) :: post)).order ↔
      e = .var v ∨ e ∈ (ofGroup (pre ++ post)).order) ∧
    (e ∈ (ofGroup (pre ++ .statement (.typing v type) :: post)).predicates ↔
      e ∈ (ofGroup (pre ++ post)).predicates) ∧
    (e ∈ (ofGroup (pre ++ .statement (.typing v type) :: post)).others ↔
      e = .var v ∨ e ∈ (ofGroup (pre ++ post)).others) := by
  have hown : ofStatement (.typing v type) = [(.var v, false)] := rfl
  simp only [ofGroup, Group.statements_append, Group.statements_statement, List.flatMap_append,
    List.flatMap_cons, hown, List.mem_eraseDups, List.filter_append, List.map_append,
    List.mem_append]
  simp [or_left_comm]

/-- A variable that is no predicate can be annotated. -/
theorem conflict?_annotated (hv : .var v ∉ (ofGroup (pre ++ post)).predicates)
    (h : (ofGroup (pre ++ post)).conflict? = none) :
    (ofGroup (pre ++ .statement (.typing v type) :: post)).conflict? = none := by
  rw [conflict?_eq_none] at h ⊢
  intro e he hother
  obtain ⟨_, hpredicate, hothers⟩ := @mem_annotated pre post v type e
  rw [hpredicate] at he
  cases hothers.1 hother with
  | inl heq => exact hv (heq ▸ he)
  | inr hother => exact h e he hother

end Roles

/-- An entity that is told to be no property is no predicate, and it is told under the name that its
type has in the schema. -/
theorem Typist.shown_of_entity {t : Typist} {roles : Roles} {types : TypeMap} {e key : Typeable}
    {type : Iri} {isResource isValue : Bool}
    (h : t.describe roles types e = .ok (some (key, .entity type isResource isValue))) :
    e ∉ roles.predicates ∧ (types.find? e).map t.shownType = some type := by
  obtain ⟨found, hfound, htold⟩ := describe_eq_some.1 h
  unfold info at htold
  split at htold
  · cases e <;> cases htold
  · rename_i hplain
    cases htold
    exact ⟨hplain, by rw [hfound]; rfl⟩

/-- **Annotating a variable with its own type changes nothing**, wherever the annotation stands in
the body: if the query does not run out of rounds, if the type is told under its stored name while
in the simple schema no datatype is the name of a class, and if what stands outside unions settles
the type of the variable. -/
theorem annotation_changes_nothing {defs : Definitions} {o : Ontology}
    (hbuild : Ontology.build defs = .ok o) (q : Query) {pre post : Group} {rounds : Nat}
    {types : Types} (h : Query.inferTypes { q with body := pre ++ post } o rounds = .ok types)
    (hout : ¬ Query.RunsOut { q with body := pre ++ post } o rounds) {v : Variable} {type : Iri}
    {isResource isValue : Bool} (hv : types.find? (.var v) = some (.entity type isResource isValue))
    (hstored : type.toInternal = type)
    (hplain : q.schema = .simple → ∀ kind : ValueKind, o.class? kind.simpleDatatype = none)
    (hsettles : Typist.Settles ⟨o, q.schema⟩ rounds pre post v type) :
    ∃ types',
      Query.inferTypes { q with body := pre ++ .statement (.typing v type) :: post } o rounds =
        .ok types' ∧ ∀ e, types'.find? e = types.find? e := by
  unfold Query.inferTypes at h ⊢
  dsimp only at h ⊢
  split at h
  · cases h
  · rename_i hconflict
    obtain ⟨p, hp, h⟩ := bind_eq_ok.1 h
    obtain ⟨infos, hinfos, h⟩ := bind_eq_ok.1 h
    cases pure_eq_ok.1 h
    have hp := mapError_eq_ok.1 hp
    have hcalm : p.exhausted = false := by
      by_contra hran
      refine hout ⟨hconflict, ?_⟩
      change ranOut _ (Typist.infer ⟨o, q.schema⟩ rounds (pre ++ post)) = true
      rw [hp]
      change p.exhausted = true
      simpa using hran
    obtain ⟨hmem, hdescribed⟩ := (Typist.lookup_described (fun _ _ => Typist.describe_key)
      (forall₂_of_mapM_ok hinfos) _ _).1 hv
    obtain ⟨hentity, hshown⟩ := Typist.shown_of_entity hdescribed
    obtain ⟨p', hp', hsame⟩ :=
      @Typist.infer_annotated ⟨o, q.schema⟩ _ hbuild hplain _ _ _ _ _ hstored hsettles _
        hp hcalm hshown
    have hdescribe : Typist.describe ⟨o, q.schema⟩ (Roles.ofGroup (pre ++ post)) p.types =
        Typist.describe ⟨o, q.schema⟩ (Roles.ofGroup (pre ++ .statement (.typing v type) :: post))
          p'.types := by
      funext e
      refine Typist.describe_congr (Bool.eq_iff_iff.2 ?_) (hsame e)
      simpa using (Roles.mem_annotated e).2.1.symm
    have horder : ∀ e, e ∈ (Roles.ofGroup (pre ++ post)).order ↔
        e ∈ (Roles.ofGroup (pre ++ .statement (.typing v type) :: post)).order := by
      intro e
      rw [(Roles.mem_annotated e).1, iff_or_self]
      rintro rfl
      exact hmem
    obtain ⟨infos', hinfos', hlookup⟩ :=
      (Typist.described_agree (fun _ _ => Typist.describe_key) horder).exists_right hinfos
    refine ⟨⟨infos'.filterMap id⟩, ?_, fun e => (hlookup e).symm⟩
    rw [Roles.conflict?_annotated hentity hconflict]
    change ((Typist.infer ⟨o, q.schema⟩ rounds _).mapError _ >>= fun p => _) = _
    rw [hp']
    change (List.mapM (Typist.describe ⟨o, q.schema⟩ _ p'.types) _ >>= fun infos => _) = _
    rw [← hdescribe, hinfos']
    rfl

/-- A name that is annotated as a string before the patterns that find it to be a text. Beside them
a property variable is told to be a page, something is a value of whatever kind, and a union has the
name as the object of another property variable. -/
theorem annotation_changes_nothing_name :
    let hasName : Entity := .ofIri "http://0.0.0.0:3333/ontology/0001/house/simple/v2#hasName"
    let hasPage : Entity := .ofIri "http://0.0.0.0:3333/ontology/0001/house/simple/v2#hasPage"
    let n : Variable := ⟨"n"⟩
    let q : Query :=
      { schema := .simple, template := []
        body :=
          [.triple (.var ⟨"r"⟩) hasName (.var n), .triple (.var ⟨"r"⟩) (.var ⟨"p"⟩) (.var ⟨"x"⟩),
           .filter (.compare (.entity (.var ⟨"p"⟩)) .eq (.entity hasPage)),
           .triple (.var ⟨"r"⟩) (.ofIri Base.hasValue) (.var ⟨"y"⟩),
           .union [[.triple (.var ⟨"r"⟩) (.var ⟨"q"⟩) (.var n)], []]] }
    ∃ o types types', Ontology.build namedPages = .ok o ∧ q.inferTypes o 32 = .ok types ∧
      ¬ q.RunsOut o 32 ∧ types.find? (.var n) = some (.entity Xsd.string false false) ∧
      Query.inferTypes { q with body := .statement (.typing n Xsd.string) :: q.body } o 32 =
        .ok types' ∧
      ∀ e, types'.find? e = types.find? e := by
  intro hasName hasPage n q
  have hrun : ((Ontology.build namedPages).toOption.map fun o => decide (
      (q.inferTypes o 32).toOption.map (·.find? (.var n)) =
        some (some (.entity Xsd.string false false)) ∧
      ¬ q.RunsOut o 32 ∧ (∀ kind ∈ ValueKind.all, o.class? kind.simpleDatatype = none) ∧
      (Pass.settle (Typist.imposeAll ⟨o, .simple⟩ (Typist.outerDemands ⟨o, .simple⟩ q.body)) 32
        ⟨.empty, false⟩).toOption.map (·.1.types.find? (.var n)) = some (some Base.textValue) ∧
      (Typist.infer ⟨o, .simple⟩ 32 q.body).toOption.map (·.types.find? (.var n)) =
        some (some Base.textValue) ∧
      ∀ d ∈ Typist.outerDemands ⟨o, .simple⟩ q.body, d.Spares (.var n) Base.textValue)) =
        some true := by
    decide +kernel
  obtain ⟨o, hbuild, hfound, hout, hplain, hrested, hwhole, hspares⟩ := Ontology.exists_built hrun
  obtain ⟨types, htypes, hv⟩ := Option.map_eq_some_iff.1 hfound
  obtain ⟨⟨rested, changed⟩, hrested, hn⟩ := Option.map_eq_some_iff.1 hrested
  obtain ⟨whole, hwhole, hn'⟩ := Option.map_eq_some_iff.1 hwhole
  have htypes := eq_ok_of_toOption htypes
  have hplain : q.schema = .simple → ∀ kind : ValueKind, o.class? kind.simpleDatatype = none :=
    fun _ kind => hplain kind kind.mem_all
  have hsettles : Typist.Settles ⟨o, .simple⟩ 32 [] q.body n Xsd.string :=
    ⟨rested, changed, whole, _, eq_ok_of_toOption hrested, eq_ok_of_toOption hwhole, hn, hn',
      .alike (Typist.settlesAlike_of_spares hspares hn _)⟩
  obtain ⟨types', htypes', hsame⟩ :=
    @annotation_changes_nothing namedPages o hbuild q [] q.body 32 types htypes hout _ _ _ _ hv
      (by decide +kernel) hplain hsettles
  exact ⟨o, types, types', hbuild, htypes, hout, hv, htypes', hsame⟩

/-- The query is typed in its rounds, with this type of the variable, and it is typed otherwise or
not at all once the variable is annotated with it. -/
def Query.AnnotationMatters (q : Query) (o : Ontology) (v : Variable) (type : Iri) : Prop :=
  ∃ types isResource isValue, q.inferTypes o 32 = .ok types ∧ ¬ q.RunsOut o 32 ∧
    types.find? (.var v) = some (.entity type isResource isValue) ∧
    ¬ ∃ types', Query.inferTypes { q with body := q.body ++ [.statement (.typing v type)] } o 32 =
      .ok types' ∧ ∀ e, types'.find? e = types.find? e

/-- The query is typed in its rounds, with this type of the variable, and once the variable is
annotated with it, something else is told of the entity. -/
def Query.DiffersAt (q : Query) (o : Ontology) (v : Variable) (type : Iri) (e : Typeable) : Prop :=
  (q.inferTypes o 32).toOption.bind (·.find? (.var v)) =
      some (.entity type (o.isResourceClass type) (o.isValueClass type)) ∧
    ¬ q.RunsOut o 32 ∧
    (Query.inferTypes { q with body := q.body ++ [.statement (.typing v type)] } o 32).toOption.map
      (·.find? e) ≠ (q.inferTypes o 32).toOption.map (·.find? e)

instance (q : Query) (o : Ontology) (v : Variable) (type : Iri) (e : Typeable) :
    Decidable (q.DiffersAt o v type e) :=
  inferInstanceAs (Decidable (_ ∧ _ ∧ _))

theorem Query.DiffersAt.annotationMatters {q : Query} {o : Ontology} {v : Variable} {type : Iri}
    {e : Typeable} (h : q.DiffersAt o v type e) : q.AnnotationMatters o v type := by
  obtain ⟨htold, hout, hdiffers⟩ := h
  obtain ⟨types, htypes, hv⟩ := Option.bind_eq_some_iff.1 htold
  refine ⟨types, _, _, eq_ok_of_toOption htypes, hout, hv, ?_⟩
  rintro ⟨types', htypes', hsame⟩
  apply hdiffers
  rw [htypes, htypes']
  exact congrArg some (hsame e)

/-- **An annotation can matter.** A type that one alternative of a union gives is then known to the
others, and they can disagree. The datatype of a text stands against a class above the class of
texts. A property variable can get a later type of its object. And the datatype of dates is read
back as no type of values. -/
theorem annotation_matters :
    let house : Iri := "http://www.knora.org/ontology/0001/house#House"
    let hasName : Entity := .ofIri "http://www.knora.org/ontology/0001/house#hasName"
    let hasDate : Entity := .ofIri "http://www.knora.org/ontology/0001/house#hasDate"
    let defs : Definitions :=
      { classes := [⟨house, [Base.resource], .empty⟩]
        properties :=
          [{ iri := "http://www.knora.org/ontology/0001/house#hasName"
             superproperties := [Base.hasValue], objectType := some Base.textValue },
           { iri := "http://www.knora.org/ontology/0001/house#hasDate"
             superproperties := [Base.hasValue], objectType := some Base.dateValue }] }
    let query (schema : Schema) (body : Group) : Query := { schema, template := [], body }
    let x : Entity := .var ⟨"x"⟩
    let y : Entity := .var ⟨"y"⟩
    let equal (a b : Entity) : Pattern := .filter (.compare (.entity a) .eq (.entity b))
    let alternatives := query .internal [.union [[equal y x],
      [.statement (.typing ⟨"x"⟩ house), .statement (.typing ⟨"y"⟩ Base.resource)]]]
    let text := query .simple [.triple (.var ⟨"r"⟩) (.ofIri Base.hasValue) x,
      .statement (.typing ⟨"y"⟩ Base.textValue), equal x y]
    let name :=
      query .internal [.triple (.var ⟨"r"⟩) (.var ⟨"p"⟩) x, .filter (.call .regex [.entity x]),
        equal x y, equal y hasName]
    let date := query .simple [.triple (.var ⟨"r"⟩) hasDate x]
    ∃ o, Ontology.build defs = .ok o ∧ alternatives.AnnotationMatters o ⟨"x"⟩ house ∧
      text.AnnotationMatters o ⟨"x"⟩ Xsd.string ∧ name.AnnotationMatters o ⟨"x"⟩ Base.textValue ∧
      date.AnnotationMatters o ⟨"x"⟩ Simple.date := by
  intro house hasName hasDate defs query x y equal alternatives text name date
  have hrun : ((Ontology.build defs).toOption.map fun o => decide (
      alternatives.DiffersAt o ⟨"x"⟩ house (.var ⟨"y"⟩) ∧
      text.DiffersAt o ⟨"x"⟩ Xsd.string (.var ⟨"x"⟩) ∧
      name.DiffersAt o ⟨"x"⟩ Base.textValue (.var ⟨"p"⟩) ∧
      date.DiffersAt o ⟨"x"⟩ Simple.date (.var ⟨"x"⟩))) = some true := by
    decide +kernel
  obtain ⟨o, hbuild, hunion, htext, hname, hdate⟩ := Ontology.exists_built hrun
  exact ⟨o, hbuild, hunion.annotationMatters, htext.annotationMatters, hname.annotationMatters,
    hdate.annotationMatters⟩

end OntoQuery
