import OntoQuery.Proofs.Namespaces

/-!
# There and back between schemas

A stored IRI has a name in each of the callers' schemas, and from that name the stored one is found
again, with two exceptions, both in the complex schema (`toInternal_toExternal_iff`). An ontology
whose path ends in `/simple` gets a namespace that ends like those of the simple schema, so that the
end of its path is taken for the schema. And a stored name that is also the complex name of some
value content is read as the latter.

The host must not be one at which a namespace means something else: `www.knora.org` makes it
internal, `api.knora.org` can make it the knowledge base's own, and `ontology` looks like the start
of the path.
-/

namespace OntoQuery

/-! ## Namespaces at a host -/

theorem Text.cutAround_skip {mark : Char} {word start : List Char} (h : mark ∉ start)
    (rest : List Char) :
    cutAround (mark :: word) (start ++ rest) =
      (cutAround (mark :: word) rest).map fun (before, after) => (start ++ before, after) := by
  induction start with
  | nil => simp
  | cons c start ih =>
    have hc : mark ≠ c := fun heq => h (heq ▸ List.mem_cons_self)
    have hstart := ih fun hmark => h (List.mem_cons_of_mem _ hmark)
    simp [cutAround, dropStart, hc, hstart, Function.comp_def]

namespace Schema

/-- The namespace with this path at the host. -/
def namespaceAt (host path : String) : String :=
  "http://" ++ host ++ ontologySegment ++ path

theorem namespaceAt_toList (host path : String) : (namespaceAt host path).toList =
    "http://".toList ++ (host.toList ++ '/' :: ("ontology/".toList ++ path.toList)) := by
  simp [namespaceAt, ontologySegment]

theorem namespaceAt_internal (path : String) :
    namespaceAt "www.knora.org" path = internalRoot ++ path := rfl

/-- A namespace determines its host, since no slash is in it, and its path. -/
theorem namespaceAt_inj {host host' path path' : String} (h : '/' ∉ host.toList)
    (h' : '/' ∉ host'.toList)
    (heq : namespaceAt host path = namespaceAt host' path') : host = host' ∧ path = path' := by
  rw [← String.toList_inj, namespaceAt_toList, namespaceAt_toList] at heq
  obtain ⟨hhost, hrest⟩ := Text.append_mark_inj h h' (List.append_cancel_left heq)
  have hpath := List.append_cancel_left hrest
  exact ⟨String.toList_inj.1 hhost, String.toList_inj.1 hpath⟩

/-- Before the path of a namespace nothing looks like the start of one. -/
theorem cutAround?_namespaceAt {host : String} (h : '/' ∉ host.toList) (hhost : host ≠ "ontology")
    (path : String) :
    Text.cutAround? ontologySegment (namespaceAt host path) = some ("http://" ++ host, path) := by
  have hword : ontologySegment.toList = '/' :: "ontology/".toList := by decide
  have hscheme : "http://".toList = "http:".toList ++ ['/', '/'] := by decide
  -- From the end to the start: the path, the host, and the two slashes before it.
  have atPath : Text.cutAround ('/' :: "ontology/".toList)
      ('/' :: ("ontology/".toList ++ path.toList)) = some ([], path.toList) := by
    have hstart : Text.dropStart ('/' :: "ontology/".toList)
        ('/' :: ("ontology/".toList ++ path.toList)) = some path.toList :=
      Text.dropStart_eq_some.2 rfl
    rw [Text.cutAround, hstart]
  have atHost : Text.cutAround ('/' :: "ontology/".toList)
      (host.toList ++ '/' :: ("ontology/".toList ++ path.toList)) =
        some (host.toList, path.toList) := by
    rw [Text.cutAround_skip h, atPath]
    simp
  have notHost : Text.dropStart ('/' :: "ontology/".toList)
      ('/' :: (host.toList ++ '/' :: ("ontology/".toList ++ path.toList))) = none := by
    by_contra hsome
    obtain ⟨rest, hrest⟩ := Option.ne_none_iff_exists'.1 hsome
    have heq := List.cons.inj (Text.dropStart_eq_some.1 hrest)
    have hname := (Text.append_mark_inj h (by decide : '/' ∉ "ontology".toList) heq.2).1
    exact hhost (String.toList_inj.1 hname)
  have atSlash : Text.cutAround ('/' :: "ontology/".toList)
      ('/' :: (host.toList ++ '/' :: ("ontology/".toList ++ path.toList))) =
      some ('/' :: host.toList, path.toList) := by
    rw [Text.cutAround, notHost, atHost]
    rfl
  have atScheme : Text.cutAround ('/' :: "ontology/".toList)
      ('/' :: '/' :: (host.toList ++ '/' :: ("ontology/".toList ++ path.toList))) =
      some ('/' :: '/' :: host.toList, path.toList) := by
    rw [Text.cutAround, atSlash]
    rfl
  rw [Text.cutAround?, hword, namespaceAt_toList, hscheme, List.append_assoc,
    Text.cutAround_skip (by decide), List.cons_append, List.singleton_append, atScheme]
  simp [← String.toList_inj]

/-- A host at which a namespace is that of a project's ontology. -/
structure IsProjectHost (host : String) : Prop where
  noSlash : '/' ∉ host.toList
  noMark : '#' ∉ host.toList
  /-- It does not look like the start of a path. -/
  notSegment : host ≠ "ontology"
  /-- It is not where internal namespaces are. -/
  notInternal : host ≠ "www.knora.org"
  /-- It is not where the knowledge base's own vocabularies are. -/
  notOwn : host ≠ "api.knora.org"

section
variable {host : String} (h : IsProjectHost host) (path : String)
include h

theorem IsProjectHost.not_internal :
    ¬ Text.startsWith (namespaceAt host path) internalRoot = true := by
  intro hstart
  obtain ⟨rest, hrest⟩ := Option.isSome_iff_exists.1 hstart
  have heq : namespaceAt host path = namespaceAt "www.knora.org" (String.ofList rest) := by
    rw [namespaceAt_internal, ← String.toList_inj, Text.dropStart_eq_some.1 hrest]
    simp
  exact h.notInternal (namespaceAt_inj h.noSlash (by decide) heq).1

theorem IsProjectHost.not_isBaseNamespace : ¬ isBaseNamespace (namespaceAt host path) = true := by
  intro hbase
  have hown : ∃ path', namespaceAt host path = namespaceAt "api.knora.org" path' := by
    cases Iri.eq_of_isBaseNamespace hbase with
    | inl hcomplex => exact ⟨"knora-api/v2", hcomplex⟩
    | inr hsimple => exact ⟨"knora-api/simple/v2", hsimple⟩
  obtain ⟨path', heq⟩ := hown
  exact h.notOwn (namespaceAt_inj h.noSlash (by decide) heq).1

/-- A namespace that ends as those of a caller's schema do belongs to a caller's schema, although
not always to the same one. -/
theorem IsProjectHost.exists_schema {schema : Schema} (hschema : schema ≠ .internal) :
    ∃ read, read ≠ .internal ∧ ofNamespace? (namespaceAt host (path ++ schema.ending)) =
      some read := by
  have hstart : Text.startsWith ("http://" ++ host) "http" = true := by
    rw [show "http://" = "http" ++ "://" from rfl, String.append_assoc]
    exact Text.startsWith_append _ _
  have hends : Text.endsWith (namespaceAt host (path ++ schema.ending)) complex.ending = true := by
    have hending : ∃ start, schema.ending = start ++ complex.ending := by
      cases schema with
      | internal => exact absurd rfl hschema
      | simple => exact ⟨"/simple", rfl⟩
      | complex => exact ⟨"", rfl⟩
    obtain ⟨start, hending⟩ := hending
    rw [Text.endsWith_iff, hending]
    exact ⟨(namespaceAt host (path ++ start)).toList, by simp [namespaceAt]⟩
  rw [ofNamespace?, if_neg (h.not_internal _), cutAround?_namespaceAt h.noSlash h.notSegment]
  dsimp only
  rw [hstart, hends]
  by_cases hsimple : Text.endsWith (namespaceAt host (path ++ schema.ending)) simple.ending = true
  · exact ⟨.simple, by decide, by simp [hsimple]⟩
  · exact ⟨.complex, by decide, by simp [hsimple]⟩

end

/-- A path is found again behind the ending of a schema, except where it ends like the simple
one. -/
theorem dropPathEnding_append {schema : Schema} (hschema : schema ≠ .internal) (path : String) :
    dropPathEnding (path ++ schema.ending) = path ↔
      ¬ (schema = .complex ∧ "/simple".toList <:+ path.toList) := by
  have hendings : simple.ending = "/simple" ++ complex.ending := rfl
  cases schema with
  | internal => exact absurd rfl hschema
  | simple => simp [dropPathEnding, Text.dropEnding?_eq_some.2 rfl]
  | complex =>
    by_cases hsimple : "/simple".toList <:+ path.toList
    · obtain ⟨start, hstart⟩ := hsimple
      have hpath : path = String.ofList start ++ "/simple" := by
        rw [← String.toList_inj, ← hstart]
        simp
      have hdrop : Text.dropEnding? simple.ending (path ++ complex.ending) =
          some (String.ofList start) := by
        rw [Text.dropEnding?_eq_some, hpath, hendings, String.append_assoc]
      have hne : String.ofList start ≠ path := by
        intro heq
        have hlength := congrArg String.length (heq.trans hpath)
        simp at hlength
      simp [dropPathEnding, hdrop, hne, ← hstart]
    · have hdrop : Text.dropEnding? simple.ending (path ++ complex.ending) = none := by
        by_contra hsome
        obtain ⟨rest, hrest⟩ := Option.ne_none_iff_exists'.1 hsome
        have heq := Text.dropEnding?_eq_some.1 hrest
        rw [hendings, ← String.append_assoc, String.append_left_inj] at heq
        exact hsimple ⟨rest.toList, by simp [heq]⟩
      simpa [dropPathEnding, hdrop, Text.dropEnding?_eq_some.2 rfl] using hsimple

end Schema

namespace Iri

/-! ## The names that callers use -/

theorem vocabulary_eq : Base.vocabulary = Schema.internalRoot ++ "knora-base" ++ "#" := by decide

theorem startsWith_base {path : String} (hpath : '#' ∉ path.toList) (name : String) :
    Text.startsWith (Schema.internalRoot ++ path ++ "#" ++ name) Base.vocabulary = true ↔
      path = "knora-base" := by
  constructor
  · intro hstart
    obtain ⟨rest, hrest⟩ := Option.isSome_iff_exists.1 hstart
    have heq : Schema.internalRoot ++ path ++ "#" ++ name =
        Schema.internalRoot ++ "knora-base" ++ "#" ++ String.ofList rest := by
      rw [← vocabulary_eq, ← String.toList_inj, Text.dropStart_eq_some.1 hrest]
      simp
    exact (internal_inj hpath (by decide) heq).1
  · rintro rfl
    rw [← vocabulary_eq]
    exact Text.startsWith_append _ _

theorem dropStart?_internalRoot (path : String) :
    Text.dropStart? Schema.internalRoot (Schema.internalRoot ++ path) = some path := by
  rw [Text.dropStart?, Text.dropStart_eq_some.2 (String.toList_append ..)]
  simp

/-- Callers know a name of the knowledge base under one of its own vocabularies, and one of a
project's ontology under a namespace at the host. -/
theorem toExternal_internal {schema : Schema} (hschema : schema ≠ .internal) (host : String)
    {path : String} (hpath : '#' ∉ path.toList) (name : String) {iri : Iri}
    (hiri : iri = Schema.internalRoot ++ path ++ "#" ++ name) :
    iri.toExternal schema host =
      if path = "knora-base" then
        if schema = .complex then Complex.vocabulary ++ iri.accessorName name
        else Simple.vocabulary ++ name
      else Schema.namespaceAt host (path ++ schema.ending) ++ "#" ++ name := by
  have hsplit : iri.split? = some (Schema.internalRoot ++ path, name) :=
    hiri ▸ split?_internal hpath name
  have hstart : Text.startsWith iri Base.vocabulary = true ↔ path = "knora-base" :=
    hiri ▸ startsWith_base hpath name
  unfold toExternal
  rw [hsplit]
  cases schema with
  | internal => exact absurd rfl hschema
  | simple =>
    dsimp only
    rw [dropStart?_internalRoot]
    simp [hstart, Schema.namespaceAt, String.append_assoc]
  | complex =>
    dsimp only
    rw [dropStart?_internalRoot]
    simp [hstart, Schema.namespaceAt, String.append_assoc]

/-! ## Back to the stored name -/

/-- What is stored for a name of a project's ontology at the host. -/
theorem toInternal_project {schema : Schema} (hschema : schema ≠ .internal) {host : String}
    (hhost : Schema.IsProjectHost host) {path : String} (hpath : '#' ∉ path.toList)
    (name : String) :
    toInternal (Schema.namespaceAt host (path ++ schema.ending) ++ "#" ++ name) =
      Schema.internalRoot ++ Schema.dropPathEnding (path ++ schema.ending) ++ "#" ++ name := by
  obtain ⟨read, hread, hns⟩ := hhost.exists_schema path hschema
  have hmark : '#' ∉ (Schema.namespaceAt host (path ++ schema.ending)).toList := by
    have hnot := hhost.noMark
    cases schema <;>
      simp [Schema.namespaceAt, Schema.ontologySegment, Schema.ending, hnot, hpath]
  rw [toInternal_of_namespace hmark hns hread]
  unfold Schema.stored
  rw [if_neg (hhost.not_isBaseNamespace _),
    Schema.cutAround?_namespaceAt hhost.noSlash hhost.notSegment]

/-- A name of the knowledge base is found again behind its complex name, unless it is itself the
complex name of some value content. -/
theorem toInternal_accessorName (name : String) :
    toInternal (Complex.vocabulary ++ accessorName (Base.vocabulary ++ name) name) =
        Base.vocabulary ++ name ↔
      name ∉ accessors.map Prod.fst := by
  have hlookups : ∀ entry ∈ accessors, accessors.lookup entry.1 = some entry.2 := by decide +kernel
  have hnames : ∀ content ∈ contentNames, content ∉ accessors.map Prod.fst := by decide +kernel
  rw [toInternal_complex, accessorName]
  cases hfind : accessors.find? (·.2 == Base.vocabulary ++ name) with
  | some entry =>
    obtain ⟨renamed, target⟩ := entry
    have hmem := List.mem_of_find?_eq_some hfind
    have htarget : target = Base.vocabulary ++ name := by simpa using List.find?_some hfind
    have hcontent : name ∈ contentNames :=
      mem_targets_accessors.1 (htarget ▸ List.mem_map_of_mem hmem)
    have hlookup : accessors.lookup renamed = some target := hlookups _ hmem
    simp only [hlookup, Option.getD_some, htarget, true_iff]
    exact hnames name hcontent
  | none =>
    dsimp only
    cases hlookup : accessors.lookup name with
    | none =>
      simp only [Option.getD_none, true_iff]
      intro hname
      obtain ⟨entry, hentry, rfl⟩ := List.mem_map.1 hname
      rw [hlookups entry hentry] at hlookup
      cases hlookup
    | some target =>
      have hmem := accessor_of_lookup hlookup
      have hother : target ≠ Base.vocabulary ++ name := by
        simpa using List.find?_eq_none.1 hfind _ hmem
      simp only [Option.getD_some, hother, false_iff, not_not]
      exact List.mem_map.2 ⟨_, hmem, rfl⟩

/-- The path of an internal IRI: what stands between the root and the first `#`. -/
def path? (iri : Iri) : Option String :=
  match iri.split? with
  | some (ns, _) => Text.dropStart? Schema.internalRoot ns
  | none => none

theorem path?_internal {path : String} (hpath : '#' ∉ path.toList) (name : String) :
    path? (Schema.internalRoot ++ path ++ "#" ++ name) = some path := by
  rw [path?, split?_internal hpath]
  exact dropStart?_internalRoot path

end Iri

/-- **What a caller's schema does to a stored IRI is undone, with two exceptions.** Take an internal
IRI, one of the callers' schemas, and a host that is fit for a project. The stored form of the IRI's
name in that schema is the IRI itself, except just when the schema is the complex one and either the
path of the IRI ends in `/simple` or the IRI is, in the knowledge base's own vocabulary, the complex
name of some value content. -/
theorem toInternal_toExternal_iff {iri : Iri} {schema : Schema} {host : String}
    (hiri : Schema.ofIri? iri = some .internal) (hschema : schema ≠ .internal)
    (hhost : Schema.IsProjectHost host) :
    (iri.toExternal schema host).toInternal = iri ↔
      ¬ (schema = .complex ∧
        ((∃ path, iri.path? = some path ∧ "/simple".toList <:+ path.toList) ∨
          ∃ name ∈ Iri.accessors.map Prod.fst, iri = Base.vocabulary ++ name)) := by
  obtain ⟨path, name, hpath, hname⟩ := Iri.ofIri?_eq_internal.1 hiri
  have hpathOf : iri.path? = some path := hname ▸ Iri.path?_internal hpath name
  rw [Iri.toExternal_internal hschema host hpath name hname]
  have hending : (∃ path, iri.path? = some path ∧ "/simple".toList <:+ path.toList) ↔
      "/simple".toList <:+ path.toList := by
    simp [hpathOf]
  rw [hending]
  by_cases hbase : path = "knora-base"
  · have hnot : ¬ "/simple".toList <:+ path.toList := by
      rw [hbase]
      decide
    rw [hbase, ← Iri.vocabulary_eq] at hname
    have hcontent : (∃ name ∈ Iri.accessors.map Prod.fst, iri = Base.vocabulary ++ name) ↔
        name ∈ Iri.accessors.map Prod.fst := by
      constructor
      · rintro ⟨other, hother, heq⟩
        rw [hname, String.append_right_inj] at heq
        exact heq ▸ hother
      · intro hmem
        exact ⟨name, hmem, hname⟩
    rw [if_pos hbase, hcontent]
    by_cases hcomplex : schema = .complex
    · rw [if_pos hcomplex, hname, Iri.toInternal_accessorName]
      simp only [hcomplex, hnot, true_and, false_or]
    · rw [if_neg hcomplex, Iri.toInternal_simple, hname]
      simp only [hcomplex, false_and, not_false_eq_true]
  · have hcontent : ¬ ∃ name ∈ Iri.accessors.map Prod.fst, iri = Base.vocabulary ++ name := by
      rintro ⟨other, _, heq⟩
      rw [hname, Iri.vocabulary_eq] at heq
      exact hbase (Iri.internal_inj hpath (by decide) heq).1
    have hsame :
        Schema.internalRoot ++ Schema.dropPathEnding (path ++ schema.ending) ++ "#" ++ name = iri ↔
          Schema.dropPathEnding (path ++ schema.ending) = path := by
      rw [hname, String.append_left_inj, String.append_left_inj, String.append_right_inj]
    rw [if_neg hbase, Iri.toInternal_project hschema hhost hpath, hsame,
      Schema.dropPathEnding_append hschema]
    simp only [hcontent, or_false]

/-- At the default host, an ontology with the path `simple` keeps its path, and one whose path only
ends so loses the end of it. -/
theorem toInternal_toExternal_iff_simple :
    let kept : Iri := "http://www.knora.org/ontology/simple#Villa"
    let lost : Iri := "http://www.knora.org/ontology/0001/simple#Villa"
    Schema.IsProjectHost Schema.defaultHost ∧
    Schema.ofIri? kept = some .internal ∧ Schema.ofIri? lost = some .internal ∧
    (kept.toExternal .complex Schema.defaultHost).toInternal = kept ∧
    (lost.toExternal .complex Schema.defaultHost).toInternal ≠ lost := by
  intro kept lost
  have hhost : Schema.IsProjectHost Schema.defaultHost :=
    ⟨by decide, by decide, by decide, by decide, by decide⟩
  have hkept : Schema.ofIri? kept = some .internal := by decide
  have hlost : Schema.ofIri? lost = some .internal := by decide
  have hcomplex : Schema.complex ≠ .internal := by decide
  refine ⟨hhost, hkept, hlost, ?_, ?_⟩
  · apply (toInternal_toExternal_iff hkept hcomplex hhost).2
    rintro ⟨_, ⟨path, hpath, hend⟩ | ⟨name, hname, heq⟩⟩
    · have hsimple : kept.path? = some "simple" := by decide
      rw [hsimple] at hpath
      cases hpath
      exact absurd hend (by decide)
    · have hnone : ∀ name ∈ Iri.accessors.map Prod.fst, kept ≠ Base.vocabulary ++ name := by
        decide +kernel
      exact hnone name hname heq
  · intro hsame
    apply (toInternal_toExternal_iff hlost hcomplex hhost).1 hsame
    exact ⟨rfl, .inl ⟨"0001/simple", by decide, by decide⟩⟩

end OntoQuery
