import OntoQuery.Proofs.Namespaces
import OntoQuery.Proofs.Subsumption
import OntoQuery.Proofs.ValuePermissions

/-!
# Computed predicates under other spellings

The check compares a predicate as it is written with the list of computed ones, while the store
knows it by its stored form, and one stored form has many spellings. `Iri.Unlisted` says which
spellings of computed predicates are not in the list: the stored form itself, some names of the
knowledge base's own vocabularies, and the names at every host that has an ontology `knora-base`. A
checked query reaches a computed predicate under these spellings and no others
(`computed_reached_iff_unlisted`).
-/

namespace OntoQuery

namespace Iri

/-! ## Stored forms of computed predicates -/

/-- The names of computed predicates that are the same in the complex schema and in the store. -/
def sharedNames : List String :=
  ["hasPermissions", "userHasPermission", "creationDate", "lastModificationDate",
    "deleteDate", "arkUrl", "versionArkUrl", "valueCreationDate", "valueHasUUID",
    "dateValueHasStartYear", "dateValueHasStartMonth", "dateValueHasStartDay",
    "dateValueHasStartEra", "dateValueHasEndYear", "dateValueHasEndMonth", "dateValueHasEndDay",
    "dateValueHasEndEra", "linkValueHasSourceIri", "linkValueHasTargetIri", "hasIncomingLinkValue",
    "hasStandoffLinkTo", "hasStandoffLinkToValue", "attachedToUser", "attachedToProject"]

/-- The names that are listed for the simple schema. -/
def simpleNames : List String :=
  ["creationDate", "lastModificationDate", "arkUrl", "versionArkUrl", "hasStandoffLinkTo"]

/-- The names under which computed predicates are stored, except for `rdfs:label`. -/
def computedNames : List String :=
  "valueHasString" :: sharedNames

theorem computed_eq : computed =
    Rdfs.label :: (("valueAsString" :: sharedNames).map (Complex.vocabulary ++ ·) ++
      simpleNames.map (Simple.vocabulary ++ ·)) :=
  rfl

theorem mem_computed {name : String} (h : name ∈ "valueAsString" :: sharedNames) :
    Complex.vocabulary ++ name ∈ computed := by
  rw [computed_eq]
  exact List.mem_cons_of_mem _ (List.mem_append_left _ (List.mem_map.2 ⟨name, h, rfl⟩))

/-- The predicate is stored like a computed one. -/
def Reaches (iri : Iri) : Prop :=
  ∃ f ∈ computed, iri.toInternal = f.toInternal

theorem lookup_sharedNames : ∀ name ∈ sharedNames, accessors.lookup name = none := by decide

theorem toInternal_shared {name : String} (h : name ∈ sharedNames) :
    toInternal (Complex.vocabulary ++ name) = Base.vocabulary ++ name := by
  rw [toInternal_complex, lookup_sharedNames name h]
  rfl

theorem toInternal_valueAsString :
    toInternal (Complex.vocabulary ++ "valueAsString") = Base.vocabulary ++ "valueHasString" := by
  rw [toInternal_complex,
    show accessors.lookup "valueAsString" = some Base.valueHasString by decide]
  decide

/-- Only `rdfs:label` is stored as `rdfs:label`. -/
theorem toInternal_eq_label {iri : Iri} : iri.toInternal = Rdfs.label ↔ iri = Rdfs.label :=
  toInternal_eq_iff (by decide) (by decide) (by decide)

theorem reaches_iff {iri : Iri} : iri.Reaches ↔
    iri.toInternal = Rdfs.label ∨ ∃ name ∈ computedNames,
      iri.toInternal = Base.vocabulary ++ name := by
  have hsimple : ∀ name ∈ simpleNames, name ∈ computedNames := by decide
  have hlabel : Rdfs.label.toInternal = Rdfs.label := toInternal_eq_label.2 rfl
  constructor
  · rintro ⟨f, hf, heq⟩
    rw [heq]
    rw [computed_eq, List.mem_cons, List.mem_append] at hf
    rcases hf with rfl | hf | hf
    · exact .inl hlabel
    · obtain ⟨name, hname, rfl⟩ := List.mem_map.1 hf
      rcases List.mem_cons.1 hname with rfl | hname
      · exact .inr ⟨_, List.mem_cons_self, toInternal_valueAsString⟩
      · exact .inr ⟨name, List.mem_cons_of_mem _ hname, toInternal_shared hname⟩
    · obtain ⟨name, hname, rfl⟩ := List.mem_map.1 hf
      exact .inr ⟨name, hsimple name hname, toInternal_simple name⟩
  · rintro (heq | ⟨name, hname, heq⟩)
    · exact ⟨Rdfs.label, List.mem_cons_self, heq.trans hlabel.symm⟩
    · rcases List.mem_cons.1 hname with rfl | hname
      · exact ⟨_, mem_computed List.mem_cons_self, heq.trans toInternal_valueAsString.symm⟩
      · exact ⟨_, mem_computed (List.mem_cons_of_mem _ hname),
          heq.trans (toInternal_shared hname).symm⟩

/-! ## Spellings -/

/-- A spelling, in a schema, of a computed predicate that is not in the list of them. -/
inductive Unlisted : Schema → Iri → Prop where
  /-- The stored form itself. -/
  | stored {name : String} : name ∈ computedNames → Unlisted .internal (Base.vocabulary ++ name)
  /-- In the complex schema, the text of a value under its stored name. -/
  | content : Unlisted .complex (Complex.vocabulary ++ "valueHasString")
  /-- In the simple schema, what is listed for the complex schema only. -/
  | simple {name : String} : name ∈ computedNames → Simple.vocabulary ++ name ∉ computed →
    Unlisted .simple (Simple.vocabulary ++ name)
  /-- In the ontology `knora-base` of any host, every name. -/
  | elsewhere {schema : Schema} {ns host name : String} : schema ≠ .internal → '#' ∉ ns.toList →
    Schema.ofNamespace? ns = some schema →
    Text.cutAround? Schema.ontologySegment ns = some (host, "knora-base" ++ schema.ending) →
    name ∈ computedNames → Unlisted schema (ns ++ "#" ++ name)

/-- The schema of a caller's namespace can be read off its path. -/
theorem schema_of_path {schema : Schema} {ns host path : String}
    (hschema : Schema.ofNamespace? ns = some schema) (hinternal : schema ≠ .internal)
    (hcut : Text.cutAround? Schema.ontologySegment ns = some (host, path))
    (hlong : Schema.simple.ending.toList.length ≤ path.toList.length) :
    (Text.endsWith path Schema.simple.ending = true ∧ schema = .simple) ∨
      Text.endsWith path Schema.simple.ending = false ∧
        Text.endsWith path Schema.complex.ending = true ∧ schema = .complex := by
  have hshort : Schema.complex.ending.toList.length ≤ path.toList.length :=
    Nat.le_trans (by decide) hlong
  have hns := Text.eq_of_cutAround? hcut
  rw [← Text.endsWith_append (host ++ Schema.ontologySegment) hlong,
    ← Text.endsWith_append (host ++ Schema.ontologySegment) hshort, ← hns]
  unfold Schema.ofNamespace? at hschema
  rw [hcut] at hschema
  dsimp only at hschema
  split at hschema
  · exact absurd (Option.some.inj hschema).symm hinternal
  · split at hschema
    · cases hschema
    · split at hschema
      · rename_i hsimple
        exact .inl ⟨hsimple, (Option.some.inj hschema).symm⟩
      · rename_i hsimple
        split at hschema
        · rename_i hcomplex
          exact .inr ⟨by simpa using hsimple, hcomplex, (Option.some.inj hschema).symm⟩
        · cases hschema

/-- A path that leads to `knora-base` ends as the schema says. -/
theorem path_of_dropPathEnding {schema : Schema} {ns host path : String}
    (hschema : Schema.ofNamespace? ns = some schema) (hinternal : schema ≠ .internal)
    (hcut : Text.cutAround? Schema.ontologySegment ns = some (host, path))
    (hpath : Schema.dropPathEnding path = "knora-base") : path = "knora-base" ++ schema.ending := by
  have hpaths : path = "knora-base/simple/v2" ∨ path = "knora-base/v2" ∨ path = "knora-base" := by
    unfold Schema.dropPathEnding at hpath
    split at hpath
    · rename_i hdrop
      rw [Text.dropEnding?_eq_some.1 hdrop, hpath]
      exact .inl rfl
    · split at hpath
      · rename_i hdrop
        rw [Text.dropEnding?_eq_some.1 hdrop, hpath]
        exact .inr (.inl rfl)
      · exact .inr (.inr hpath)
  rcases hpaths with rfl | rfl | rfl
  · rcases schema_of_path hschema hinternal hcut (by decide) with ⟨_, rfl⟩ | ⟨hnot, _⟩
    · rfl
    · exact absurd hnot (by decide)
  · rcases schema_of_path hschema hinternal hcut (by decide) with ⟨hsimple, _⟩ | ⟨_, _, rfl⟩
    · exact absurd hsimple (by decide)
    · rfl
  · rcases schema_of_path hschema hinternal hcut (by decide) with ⟨hsimple, _⟩ | ⟨_, hcomplex, _⟩
    · exact absurd hsimple (by decide)
    · exact absurd hcomplex (by decide)

/-- Among the accessors of value content only `valueAsString` is stored like a computed
predicate. -/
theorem accessor_of_stored {local_ name : String} {target : Iri} (hname : name ∈ computedNames)
    (hmem : (local_, target) ∈ accessors) (h : target = Base.vocabulary ++ name) :
    local_ = "valueAsString" := by
  have hnames : ∀ name ∈ computedNames, name ∈ contentNames → name = "valueHasString" := by decide
  have hcontent : ∀ entry ∈ accessors, entry.2 = Base.vocabulary ++ "valueHasString" →
      entry.1 = "valueAsString" := by decide +kernel
  have htarget : target ∈ accessors.map Prod.snd := List.mem_map.2 ⟨_, hmem, rfl⟩
  rw [h, mem_targets_accessors] at htarget
  exact hcontent _ hmem (by rw [h, hnames name hname htarget])

/-- A spelling in the complex schema is listed, or gives the text of a value its stored name. -/
theorem complex_spelling {local_ name : String} (hname : name ∈ computedNames)
    (h : Schema.complex.stored complexNamespace local_ = Base.vocabulary ++ name) :
    Complex.vocabulary ++ local_ ∈ computed ∨ local_ = "valueHasString" := by
  rw [stored_complex] at h
  cases hlookup : accessors.lookup local_ with
  | some target =>
    rw [hlookup, Option.getD_some] at h
    rw [accessor_of_stored hname (accessor_of_lookup hlookup) h]
    exact .inl (mem_computed List.mem_cons_self)
  | none =>
    rw [hlookup, Option.getD_none] at h
    rw [(String.append_right_inj _).1 h]
    exact (List.mem_cons.1 hname).symm.imp
      (fun hname => mem_computed (List.mem_cons_of_mem _ hname)) id

/-- What is stored as a computed predicate is in the list or spelled otherwise. -/
theorem spelling_of_stored {iri : Iri} {name : String} (hname : name ∈ computedNames)
    (h : iri.toInternal = Base.vocabulary ++ name) :
    iri ∈ computed ∨ ∃ schema, Unlisted schema iri := by
  have hstored : iri = Base.vocabulary ++ name → ∃ schema, Unlisted schema iri := by
    rintro rfl
    exact ⟨_, .stored hname⟩
  unfold toInternal at h
  split at h
  · exact .inr (hstored h)
  · rename_i ns local_ hsplit
    obtain ⟨hiri, hns⟩ := split?_eq_some.1 hsplit
    split at h
    · exact .inr (hstored h)
    · exact .inr (hstored h)
    · rename_i schema hother hschema
      have hinternal : schema ≠ .internal := by
        rintro rfl
        exact hother rfl
      by_cases hbase : Schema.isBaseNamespace ns = true
      · rcases eq_of_isBaseNamespace hbase with rfl | rfl
        · have hcomplex : schema = .complex :=
            Option.some.inj (hschema.symm.trans ofNamespace?_complex)
          subst hcomplex
          rw [complexNamespace_append] at hiri
          refine (complex_spelling hname h).imp (hiri ▸ ·) fun hlocal => ⟨.complex, ?_⟩
          rw [hiri, hlocal]
          exact .content
        · have hsimple : schema = .simple :=
            Option.some.inj (hschema.symm.trans ofNamespace?_simple)
          subst hsimple
          rw [simpleNamespace_append] at hiri
          rw [stored_simple] at h
          rw [hiri, (String.append_right_inj _).1 h]
          by_cases hlisted : Simple.vocabulary ++ name ∈ computed
          · exact .inl hlisted
          · exact .inr ⟨_, .simple hname hlisted⟩
      · obtain ⟨host, path, hcut⟩ := Schema.exists_cut_of_ofNamespace? hschema hinternal
        unfold Schema.stored at h
        rw [if_neg hbase, hcut] at h
        dsimp only at h
        have hmark : '#' ∉ (Schema.dropPathEnding path).toList := fun hmark =>
          hns (Text.subset_of_cutAround? hcut (Schema.dropPathEnding_subset path hmark))
        rw [show Base.vocabulary = Schema.internalRoot ++ "knora-base" ++ "#" by decide] at h
        obtain ⟨hpath, rfl⟩ := internal_inj hmark (by decide) h
        rw [path_of_dropPathEnding hschema hinternal hcut hpath] at hcut
        exact .inr ⟨schema, hiri ▸ .elsewhere hinternal hns hschema hcut hname⟩

theorem not_isBaseNamespace {schema : Schema} {ns host : String}
    (h : Text.cutAround? Schema.ontologySegment ns = some (host, "knora-base" ++ schema.ending)) :
    Schema.isBaseNamespace ns ≠ true := by
  intro hbase
  have hpath (path : String) :
      Text.cutAround? Schema.ontologySegment ns = some ("http://api.knora.org", path) →
        path = "knora-base" ++ schema.ending :=
    fun h' => congrArg Prod.snd (Option.some.inj (h'.symm.trans h))
  rcases eq_of_isBaseNamespace hbase with rfl | rfl
  · have heq := hpath "knora-api/v2" (by decide)
    revert heq
    cases schema <;> decide
  · have heq := hpath "knora-api/simple/v2" (by decide)
    revert heq
    cases schema <;> decide

theorem toInternal_of_unlisted {schema : Schema} {iri : Iri} (h : Unlisted schema iri) :
    ∃ name ∈ computedNames, iri.toInternal = Base.vocabulary ++ name := by
  cases h with
  | @stored name hname => exact ⟨name, hname, toInternal_of_internal internal_of_base⟩
  | content =>
    refine ⟨"valueHasString", List.mem_cons_self, ?_⟩
    rw [toInternal_complex, show accessors.lookup "valueHasString" = none by decide]
    rfl
  | @simple name hname _ => exact ⟨name, hname, toInternal_simple name⟩
  | @elsewhere _ ns host name hinternal hns hschema hcut hname =>
    have hpath : Schema.dropPathEnding ("knora-base" ++ schema.ending) = "knora-base" := by
      cases schema <;> decide
    refine ⟨name, hname, ?_⟩
    rw [toInternal_of_namespace hns hschema hinternal]
    unfold Schema.stored
    rw [if_neg (not_isBaseNamespace hcut), hcut]
    dsimp only
    rw [hpath]
    rfl

/-- **The spellings of computed predicates** are the listed ones and the unlisted ones. -/
theorem reaches_iff_unlisted {iri : Iri} (h : iri ∉ computed) :
    iri.Reaches ↔ ∃ schema, Unlisted schema iri := by
  have hlabel : Rdfs.label ∈ computed := List.mem_cons_self
  rw [reaches_iff, toInternal_eq_label]
  constructor
  · rintro (rfl | ⟨name, hname, hstored⟩)
    · exact absurd hlabel h
    · exact (spelling_of_stored hname hstored).resolve_left h
  · rintro ⟨schema, hunlisted⟩
    exact .inr (toInternal_of_unlisted hunlisted)

/-- A spelling is read in its schema. -/
theorem ofIri?_of_unlisted {schema : Schema} {iri : Iri} (h : Unlisted schema iri) :
    Schema.ofIri? iri = some schema := by
  have hread : ∀ {ns : String} {schema : Schema}, '#' ∉ ns.toList →
    Schema.ofNamespace? ns = some schema →
      ∀ name, Schema.ofIri? (ns ++ "#" ++ name) = some schema := by
    intro ns schema hns hschema name
    unfold Schema.ofIri?
    rw [split?_eq_some.2 ⟨rfl, hns⟩]
    exact hschema
  cases h with
  | stored =>
    exact @hread "http://www.knora.org/ontology/knora-base" .internal (by decide) (by decide) _
  | content =>
    rw [← complexNamespace_append]
    exact hread (by decide) ofNamespace?_complex _
  | simple =>
    rw [← simpleNamespace_append]
    exact hread (by decide) ofNamespace?_simple _
  | elsewhere _ hns hschema => exact hread hns hschema _

end Iri

/-! ## Checked queries -/

/-- A checked statement has no listed predicate, and one with a schema has that of the query. -/
theorem Statement.predicate_of_check {s : Statement} {schema : Schema} {types : Types}
    {clause : Clause} (h : s.check schema types clause = .ok ()) {ref : IriRef}
    (hp : s.predicate = .iri ref) :
    ref.iri ∉ Iri.computed ∧ ∀ tag, ref.schema = some tag → tag = schema := by
  obtain ⟨_, _, h⟩ := bind_eq_ok.1 h
  obtain ⟨_, hschemas, h⟩ := bind_eq_ok.1 h
  have hpredicate : s.checkPredicate types clause = .ok () := by
    dsimp only at h
    split at h
    · obtain ⟨_, _, h⟩ := bind_eq_ok.1 h
      exact h
    · exact h
  constructor
  · intro hcomputed
    have hforbidden : ref.iri.isForbiddenIn clause = true := by
      cases clause <;> simp [Iri.isForbiddenIn, Iri.isComputed, hcomputed]
    unfold checkPredicate at hpredicate
    rw [hp] at hpredicate
    dsimp only at hpredicate
    rw [if_pos hforbidden] at hpredicate
    cases hpredicate
  · intro tag htag
    have hschema : s.checkSchema schema (.iri ref) = .ok () :=
      of_forM_ok hschemas _ (by simp [entities, hp])
    unfold checkSchema at hschema
    dsimp only at hschema
    rw [htag] at hschema
    dsimp only at hschema
    split at hschema
    · assumption
    · cases hschema

/-- **A checked query reaches a computed predicate exactly under an unlisted spelling.** Take a
statement of the body, at any depth, or of the template, whose predicate is an IRI. It is stored
like a computed predicate just if it is one of the unlisted spellings; and where the IRI is tagged
with the schema that it is written in, that is the schema of the query. -/
theorem computed_reached_iff_unlisted {q : Query} {types : Types} (h : q.check types = .ok ())
    {s : Statement} (hs : s ∈ q.body.statements ∨ s ∈ q.template) {ref : IriRef}
    (hp : s.predicate = .iri ref) :
    (ref.iri.Reaches ↔ ∃ schema, Iri.Unlisted schema ref.iri) ∧
    (ref.schema = Schema.ofIri? ref.iri → (ref.iri.Reaches ↔ Iri.Unlisted q.schema ref.iri)) := by
  obtain ⟨clause, hcheck⟩ : ∃ clause, s.check q.schema types clause = .ok () := by
    rcases hs with hs | hs
    · exact ⟨.body, q.body_of_check h hs⟩
    · exact ⟨.template, q.template_of_check h hs⟩
  obtain ⟨hlisted, hschema⟩ := Statement.predicate_of_check hcheck hp
  have hreaches := Iri.reaches_iff_unlisted hlisted
  refine ⟨hreaches, fun htag => hreaches.trans ⟨?_, fun hunlisted => ⟨_, hunlisted⟩⟩⟩
  rintro ⟨schema, hunlisted⟩
  rw [← hschema schema (htag.trans (Iri.ofIri?_of_unlisted hunlisted))]
  exact hunlisted

/-- Asks for resources and, where there are any, for what is found under the predicate. -/
def askedUnder (schema : Schema) (vocabulary : String) (predicate : Iri) : Query where
  schema
  template := [⟨.var ⟨"r"⟩, .ofIri (vocabulary ++ "isMainResource"), .lit (.boolean true)⟩]
  body :=
    [.triple (.var ⟨"r"⟩) (.ofIri Rdf.type) (.ofIri (vocabulary ++ "Resource")),
     .optional [.triple (.var ⟨"r"⟩) (.ofIri predicate) (.var ⟨"x"⟩)]]

/-- The query can be typed, and passes the check. -/
def Query.Passes (q : Query) (o : Ontology) : Prop :=
  ∃ types, q.inferTypes o 32 = .ok types ∧ q.check types = .ok ()

theorem Query.passes_of_run {q : Query} {o : Ontology}
    (h : (q.inferTypes o 32 >>= q.check).isOk = true) : q.Passes o := by
  cases hrun : q.inferTypes o 32 >>= q.check with
  | error fault =>
    rw [hrun] at h
    cases h
  | ok _ => exact bind_eq_ok.1 hrun

/-- The permissions of resources, spelled at another host. -/
def permissionsElsewhere : Iri := "http://example.org/ontology/knora-base/v2#hasPermissions"

/-- The permissions of resources, spelled in the simple schema. -/
def simplePermissions : Iri := Simple.vocabulary ++ "hasPermissions"

theorem askedUnder_passes : ∃ o, Ontology.build {} = .ok o ∧
    (askedUnder .complex Complex.vocabulary permissionsElsewhere).Passes o ∧
    (askedUnder .simple Simple.vocabulary simplePermissions).Passes o := by
  have hrun : ((Ontology.build {}).toOption.map fun o => decide
      (((askedUnder .complex Complex.vocabulary permissionsElsewhere).inferTypes o 32 >>=
          (askedUnder .complex Complex.vocabulary permissionsElsewhere).check).isOk = true ∧
        ((askedUnder .simple Simple.vocabulary simplePermissions).inferTypes o 32 >>=
          (askedUnder .simple Simple.vocabulary simplePermissions).check).isOk = true)) =
            some true := by
    decide +kernel
  obtain ⟨o, hbuild, helsewhere, hsimple⟩ := Ontology.exists_built hrun
  exact ⟨o, hbuild, Query.passes_of_run helsewhere, Query.passes_of_run hsimple⟩

/-- At another host the permissions of resources can be asked for. -/
theorem computed_reached_iff_unlisted_elsewhere :
    ∃ o, Ontology.build {} = .ok o ∧
      (askedUnder .complex Complex.vocabulary permissionsElsewhere).Passes o ∧
      Iri.Unlisted .complex permissionsElsewhere ∧ permissionsElsewhere.Reaches := by
  obtain ⟨o, hbuild, hpasses, _⟩ := askedUnder_passes
  obtain ⟨types, htypes, hchecked⟩ := hpasses
  have hunlisted : Iri.Unlisted .complex permissionsElsewhere :=
    @Iri.Unlisted.elsewhere .complex "http://example.org/ontology/knora-base/v2"
      "http://example.org" "hasPermissions" nofun (by decide) (by decide) (by decide) (by decide)
  have hs : ⟨.var ⟨"r"⟩, .ofIri permissionsElsewhere, .var ⟨"x"⟩⟩ ∈
      (askedUnder .complex Complex.vocabulary permissionsElsewhere).body.statements :=
    List.mem_cons_of_mem _ List.mem_cons_self
  exact ⟨o, hbuild, ⟨types, htypes, hchecked⟩, hunlisted,
    ((computed_reached_iff_unlisted hchecked (.inl hs) rfl).2 (by decide)).2 hunlisted⟩

/-- **In the simple schema the permissions of resources can be asked for.** The query is typed and
checked, although its predicate is stored like the computed one of the complex schema. -/
theorem permissions_reached_in_simple_schema :
    let q := askedUnder .simple Simple.vocabulary simplePermissions
    ∃ o, Ontology.build {} = .ok o ∧ q.Passes o ∧
      (∃ s ∈ q.body.statements, s.predicate = .iri (.of simplePermissions)) ∧
      ∃ f ∈ Iri.computed, simplePermissions.toInternal = f.toInternal := by
  intro q
  obtain ⟨o, hbuild, _, hpasses⟩ := askedUnder_passes
  have hshared : "hasPermissions" ∈ Iri.sharedNames := List.mem_cons_self
  refine ⟨o, hbuild, hpasses, ⟨_, List.mem_cons_of_mem _ List.mem_cons_self, rfl⟩, ?_⟩
  exact ⟨_, Iri.mem_computed (List.mem_cons_of_mem _ hshared),
    (Iri.toInternal_simple _).trans (Iri.toInternal_shared hshared).symm⟩

end OntoQuery
