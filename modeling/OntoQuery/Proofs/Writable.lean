import OntoQuery.Proofs.FlatForm
import OntoQuery.Proofs.Terms
import OntoQuery.Sparql.Text

/-!
# What can be written

Writing fails at a name, an IRI or a datatype that has no form in SPARQL, and at nothing else: a
group can be written if all entities in it can be (`Group.Writable`, `Sparql.exists_groupLines`).
The names that the compiler makes of entities that can be written can be written too, whatever
characters are in them (`Sparql.writable_joined` and what follows), and so can the stored forms of
IRIs (`Sparql.isIri_toInternal`).
-/

namespace OntoQuery

namespace Sparql

/-- There is a term for the entity. -/
def Writable (e : Entity) : Prop :=
  ∃ text, term e = .ok text

theorem writable_var {v : Variable} : Writable (.var v) ↔ isName v.name = true := by
  change (∃ text, variableTerm v = .ok text) ↔ _
  unfold variableTerm
  split <;> simp_all

theorem writable_iri {ref : IriRef} : Writable (.iri ref) ↔ isIri ref.iri = true := by
  change (∃ text, iriTerm (.iri ref) ref.iri = .ok text) ↔ _
  unfold iriTerm
  split <;> simp_all

theorem writable_ofIri {iri : Iri} : Writable (.ofIri iri) ↔ isIri iri = true :=
  writable_iri

/-! ## Names -/

/-- All characters of the text can stand in names. -/
def Plain (text : String) : Prop :=
  ∀ c ∈ text.toList, isNameChar c = true

instance (text : String) : Decidable (Plain text) :=
  List.decidableBAll _ text.toList

theorem isName_iff {name : String} : isName name = true ↔ name ≠ "" ∧ Plain name := by
  simp [isName, Plain, isNameChar]

theorem plain_append {a b : String} : Plain (a ++ b) ↔ Plain a ∧ Plain b := by
  simp [Plain, or_imp, forall_and]

theorem plain_plainName (name : String) : Plain (Iri.plainName name) := by
  intro c hc
  rw [Iri.plainName, String.toList_ofList, List.mem_map] at hc
  obtain ⟨d, _, rfl⟩ := hc
  split
  · rename_i hplain
    rcases Bool.or_eq_true_iff.1 hplain with hplain | hplain
    · rw [isNameChar, Text.isAlphanumeric_of_ascii hplain, Bool.true_or]
    · rw [isNameChar, hplain, Bool.or_true]
  · decide

theorem plain_baseName {e : Entity} (h : Writable e) : Plain e.baseName := by
  cases e with
  | var v => exact (isName_iff.1 (writable_var.1 h)).2
  | iri ref => exact plain_plainName _
  | lit l => exact (by decide : Plain "literal")

theorem plain_toString (n : Nat) : Plain (toString n) := by
  intro c hc
  have hdigits : (toString n).toList = Nat.toDigits 10 n := Nat.toList_repr
  rw [hdigits] at hc
  have hdigit : c.isDigit = true := Nat.isDigit_of_mem_toDigits (by decide) (by decide) hc
  rw [isNameChar, Text.isAlphanumeric_of_ascii (Bool.or_eq_true_iff.2 (.inr hdigit)), Bool.true_or]

theorem plain_intercalate {between : String} (hbetween : Plain between) {parts : List String}
    (h : ∀ part ∈ parts, Plain part) : Plain (between.intercalate parts) := by
  induction parts with
  | nil => exact (by decide : Plain "")
  | cons first parts ih =>
    have hfirst := h first List.mem_cons_self
    have hparts := ih fun part hpart => h part (List.mem_cons_of_mem _ hpart)
    cases parts with
    | nil => simpa using hfirst
    | cons second parts =>
      rw [String.intercalate_cons_cons, plain_append, plain_append]
      exact ⟨⟨hfirst, hbetween⟩, hparts⟩

/-- A name that is joined from parts can be written if the parts could stand in names. -/
theorem writable_joined {first second : String} {parts : List String}
    (h : ∀ part ∈ first :: second :: parts, Plain part) :
    Writable (.var (.joined (first :: second :: parts))) := by
  rw [writable_var, isName_iff]
  refine ⟨?_, plain_intercalate (by decide) h⟩
  intro hempty
  have hchars := congrArg String.toList hempty
  rw [Variable.joined, String.intercalate_cons_cons, String.toList_append, String.toList_append]
    at hchars
  simp [Variable.separator] at hchars

section
variable {subject predicate object node : Entity} {v : Variable}

theorem writable_valueNode (hs : Writable subject) (hp : Writable predicate) (ho : Writable object)
    (index : Nat) : Writable (.var (.valueNode subject predicate object index)) := by
  have hnumbered : Writable (.var (.joined
      [subject.baseName, predicate.baseName, "valueNode" ++ toString index])) := by
    apply writable_joined
    simp only [List.forall_mem_cons]
    exact ⟨plain_baseName hs, plain_baseName hp,
      plain_append.2 ⟨by decide, plain_toString index⟩, nofun⟩
  cases object with
  | var v =>
    apply writable_joined
    simp only [List.forall_mem_cons]
    exact ⟨plain_baseName ho, by decide, nofun⟩
  | iri ref => exact hnumbered
  | lit l => exact hnumbered

theorem writable_newerVersion (h : Writable node) : Writable (.var (.newerVersion node)) := by
  apply writable_joined
  simp only [List.forall_mem_cons]
  exact ⟨plain_baseName h, by decide, nofun⟩

theorem writable_linkValue (hs : Writable subject) (property : Iri) (ho : Writable object) :
    Writable (.var (.linkValue subject property object)) := by
  apply writable_joined
  simp only [List.forall_mem_cons]
  exact ⟨plain_baseName hs, plain_plainName _, plain_baseName ho, by decide, nofun⟩

theorem writable_permissions (h : Writable (.var v)) : Writable (.var v.permissions) := by
  apply writable_joined
  simp only [List.forall_mem_cons]
  exact ⟨plain_baseName h, by decide, nofun⟩

theorem writable_orderContent (h : Writable (.var v)) : Writable (.var v.orderContent) := by
  apply writable_joined
  simp only [List.forall_mem_cons]
  exact ⟨plain_baseName h, by decide, nofun⟩

end

/-! ## IRIs -/

/-- All characters of the text can stand between angle brackets. -/
def Bare (text : String) : Prop :=
  ∀ c ∈ text.toList, isIriDelimiter c = false

instance (text : String) : Decidable (Bare text) :=
  List.decidableBAll _ text.toList

theorem isIri_iff {iri : String} : isIri iri = true ↔ iri ≠ "" ∧ Bare iri := by
  simp [isIri, Bare]

theorem bare_append {a b : String} : Bare (a ++ b) ↔ Bare a ∧ Bare b := by
  simp [Bare, or_imp, forall_and]

theorem isIri_append {a b : String} (ha : isIri a = true) (hb : Bare b) :
    isIri (a ++ b) = true := by
  rw [isIri_iff] at ha ⊢
  refine ⟨?_, bare_append.2 ⟨ha.2, hb⟩⟩
  intro hempty
  exact ha.1 (String.append_eq_empty_iff.1 hempty).1

theorem isIri_stored {schema : Schema} {ns name : String} (hns : Bare ns) (hname : Bare name) :
    isIri (schema.stored ns name) = true := by
  have htargets : ∀ accessor ∈ Iri.accessors, isIri accessor.2 = true := by decide +kernel
  unfold Schema.stored
  split
  · split
    · rename_i target htarget
      exact htargets _ (Iri.accessor_of_lookup htarget)
    · exact isIri_append (by decide +kernel) hname
  · split
    · rename_i path hcut
      have hpath : Bare (Schema.dropPathEnding path) := by
        intro c hc
        exact hns c (Text.subset_of_cutAround? hcut (Schema.dropPathEnding_subset path hc))
      exact isIri_append (isIri_append (isIri_append (by decide +kernel) hpath) (by decide)) hname
    · rw [isIri_iff, bare_append, bare_append]
      exact ⟨by simp, ⟨hns, by decide⟩, hname⟩

/-- The stored form of an IRI can be written if the IRI can. -/
theorem isIri_toInternal {iri : Iri} (h : isIri iri = true) : isIri iri.toInternal = true := by
  unfold Iri.toInternal
  split
  · exact h
  · rename_i ns name hsplit
    split
    · exact h
    · exact h
    · obtain ⟨rfl, _⟩ := Iri.split?_eq_some.1 hsplit
      obtain ⟨⟨hns, _⟩, hname⟩ :=
        (bare_append.trans (and_congr_left' bare_append)).1 (isIri_iff.1 h).2
      exact isIri_stored hns hname

theorem writable_flatten {e : Entity} (h : Writable e) : Writable e.flatten := by
  cases e with
  | iri ref => exact writable_ofIri.2 (isIri_toInternal (writable_iri.1 h))
  | var v => exact h
  | lit l => exact h

theorem writable_contentPredicate (kind : ValueKind) : Writable (.ofIri kind.contentPredicate) := by
  rw [writable_ofIri]
  cases kind <;> decide +kernel

/-! ## Expressions -/

theorem exists_expressions {es : List Expression} (h : ∀ e ∈ es, ∃ text, expression e = .ok text) :
    ∃ texts, expressions es = .ok texts := by
  induction es with
  | nil => exact ⟨[], rfl⟩
  | cons e es ih =>
    obtain ⟨first, hfirst⟩ := h e List.mem_cons_self
    obtain ⟨rest, hrest⟩ := ih fun e' he' => h e' (List.mem_cons_of_mem _ he')
    exact ⟨_, bind_eq_ok.2 ⟨first, hfirst, bind_eq_ok.2 ⟨rest, hrest, rfl⟩⟩⟩

theorem exists_negation {inner : Expression} {text : String} (h : expression inner = .ok text) :
    ∃ negated, expression (.not inner) = .ok negated := by
  have plain : ∃ negated, (expression inner >>= fun text => pure ("!" ++ text)) = .ok negated :=
    ⟨_, bind_eq_ok.2 ⟨text, h, rfl⟩⟩
  cases inner with
  | compare left op right =>
    obtain ⟨l, hl, h⟩ := bind_eq_ok.1 h
    obtain ⟨r, hr, _⟩ := bind_eq_ok.1 h
    exact ⟨_, bind_eq_ok.2 ⟨l, hl, bind_eq_ok.2 ⟨r, hr, rfl⟩⟩⟩
  | entity e => exact plain
  | and left right => exact plain
  | or left right => exact plain
  | not inner => exact plain
  | call function args => exact plain

/-- An expression can be written if the entities in it can be. -/
theorem exists_expression {e : Expression} (h : ∀ term, e.Has (.entity term) → Writable term) :
    ∃ text, expression e = .ok text := by
  induction e using Expression.by_operands with
  | step e ih =>
    have hoperands : ∀ x ∈ e.operands, ∃ text, expression x = .ok text :=
      fun x hx => ih x hx fun term hterm => h term (.operand hx hterm)
    have both : ∀ {left right : Expression}, e.operands = [left, right] →
        ∃ l r, expression left = .ok l ∧ expression right = .ok r := by
      intro left right heq
      obtain ⟨l, hl⟩ := hoperands left (by simp [heq])
      obtain ⟨r, hr⟩ := hoperands right (by simp [heq])
      exact ⟨l, r, hl, hr⟩
    cases e with
    | entity term => exact h term (.self _)
    | compare left op right =>
      obtain ⟨l, r, hl, hr⟩ := both rfl
      exact ⟨_, bind_eq_ok.2 ⟨l, hl, bind_eq_ok.2 ⟨r, hr, rfl⟩⟩⟩
    | and left right =>
      obtain ⟨l, r, hl, hr⟩ := both rfl
      exact ⟨_, bind_eq_ok.2 ⟨l, hl, bind_eq_ok.2 ⟨r, hr, rfl⟩⟩⟩
    | or left right =>
      obtain ⟨l, r, hl, hr⟩ := both rfl
      exact ⟨_, bind_eq_ok.2 ⟨l, hl, bind_eq_ok.2 ⟨r, hr, rfl⟩⟩⟩
    | not inner =>
      obtain ⟨text, htext⟩ := hoperands inner List.mem_cons_self
      exact exists_negation htext
    | call function args =>
      obtain ⟨texts, htexts⟩ := exists_expressions hoperands
      exact ⟨_, bind_eq_ok.2 ⟨texts, htexts, rfl⟩⟩

end Sparql

/-! ## Groups -/

/-- There are terms for all entities of the statement. -/
def Statement.Writable (s : Statement) : Prop :=
  ∀ e ∈ s.entities, Sparql.Writable e

theorem Statement.writable_iff {s : Statement} : s.Writable ↔
    Sparql.Writable s.subject ∧ Sparql.Writable s.predicate ∧ Sparql.Writable s.object := by
  simp [Writable, entities]

/-- There are terms for all entities of the group, at any depth. -/
def Group.Writable (g : Group) : Prop :=
  ∀ e, g.HasEntity e → Sparql.Writable e

/-- There are terms for all entities of the pattern, at any depth. -/
def Pattern.Writable : Pattern → Prop
  | .statement s => s.Writable
  | .filter condition => ∀ e, condition.Has (.entity e) → Sparql.Writable e
  | p => ∀ g ∈ p.groups, Group.Writable g

@[simp] theorem Pattern.writable_statement {s : Statement} :
    (Pattern.statement s).Writable ↔ s.Writable := Iff.rfl

@[simp] theorem Pattern.writable_triple {subject predicate object : Entity} :
    (Pattern.triple subject predicate object).Writable ↔
      Sparql.Writable subject ∧ Sparql.Writable predicate ∧ Sparql.Writable object :=
  Statement.writable_iff

@[simp] theorem Pattern.writable_filter {condition : Expression} :
    (Pattern.filter condition).Writable ↔
      ∀ e, condition.Has (.entity e) → Sparql.Writable e := Iff.rfl

@[simp] theorem Pattern.writable_optional {g : Group} : (Pattern.optional g).Writable ↔
    g.Writable := by
  simp [Writable, groups]

@[simp] theorem Pattern.writable_union {gs : List Group} :
    (Pattern.union gs).Writable ↔ ∀ g ∈ gs, g.Writable := Iff.rfl

@[simp] theorem Pattern.writable_minus {g : Group} : (Pattern.minus g).Writable ↔ g.Writable := by
  simp [Writable, groups]

namespace Group

theorem writable_iff {g : Group} : g.Writable ↔ ∀ p ∈ g, p.Writable := by
  constructor
  · intro h p hp
    have inner : ∀ inner ∈ p.groups, inner.Writable := by
      rintro inner hinner e (⟨hs, he⟩ | ⟨hc, he⟩)
      · exact h e (.statement (.inside hp hinner hs) he)
      · exact h e (.filter (.inside hp hinner hc) he)
    cases p with
    | statement s => exact fun e he => h e (.statement (.here hp) he)
    | filter condition => exact fun e he => h e (.filter (.here hp) he)
    | optional g => exact inner
    | union gs => exact inner
    | minus g => exact inner
  · intro h
    have inner : ∀ p ∈ g, ∀ inner ∈ p.groups, inner.Writable := by
      intro p hp inner hinner
      have hwritable := h p hp
      cases p with
      | statement s => cases hinner
      | filter condition => cases hinner
      | optional g => exact hwritable inner hinner
      | union gs => exact hwritable inner hinner
      | minus g => exact hwritable inner hinner
    rintro e (⟨hs, he⟩ | ⟨hc, he⟩)
    · cases hs with
      | here hp => exact h _ hp e he
      | inside hp hinner hs => exact inner _ hp _ hinner e (.statement hs he)
    · cases hc with
      | here hp => exact h _ hp e he
      | inside hp hinner hc => exact inner _ hp _ hinner e (.filter hc he)

@[simp] theorem writable_nil : Writable [] :=
  writable_iff.2 nofun

@[simp] theorem writable_cons {p : Pattern} {ps : Group} :
    Writable (p :: ps) ↔ p.Writable ∧ Writable ps := by
  rw [writable_iff, writable_iff, List.forall_mem_cons]

@[simp] theorem writable_append {g g' : Group} : Writable (g ++ g') ↔ g.Writable ∧ g'.Writable := by
  rw [writable_iff, writable_iff, writable_iff, List.forall_mem_append]

end Group

namespace Sparql

theorem exists_statementLine {s : Statement} (h : s.Writable) (d : Nat) :
    ∃ l, statementLine d s = .ok l := by
  obtain ⟨⟨a, ha⟩, ⟨b, hb⟩, c, hc⟩ := Statement.writable_iff.1 h
  exact ⟨_, bind_eq_ok.2 ⟨a, ha, bind_eq_ok.2 ⟨b, hb, bind_eq_ok.2 ⟨c, hc, rfl⟩⟩⟩⟩

theorem exists_alternativeLines {gs : List Group} {d : Nat}
    (h : ∀ g ∈ gs, ∃ ls, groupLines (d + 1) g = .ok ls) : ∃ ls, alternativeLines d gs = .ok ls := by
  induction gs with
  | nil => exact ⟨[], rfl⟩
  | cons g gs ih =>
    obtain ⟨inside, hinside⟩ := h g List.mem_cons_self
    obtain ⟨rest, hrest⟩ := ih fun g' hg' => h g' (List.mem_cons_of_mem _ hg')
    cases gs with
    | nil => exact ⟨_, bind_eq_ok.2 ⟨inside, hinside, rfl⟩⟩
    | cons g' gs => exact ⟨_, bind_eq_ok.2 ⟨inside, hinside, bind_eq_ok.2 ⟨rest, hrest, rfl⟩⟩⟩

/-- A group can be written if the entities in it can be. -/
theorem exists_groupLines {g : Group} (h : g.Writable) (d : Nat) :
    ∃ ls, groupLines d g = .ok ls := by
  have append : ∀ {d : Nat} {p : Pattern} {ps : Group}, (∃ first, patternLines d p = .ok first) →
      (∃ rest, groupLines d ps = .ok rest) → ∃ ls, groupLines d (p :: ps) = .ok ls := by
    rintro d p ps ⟨first, hfirst⟩ ⟨rest, hrest⟩
    exact ⟨_, bind_eq_ok.2 ⟨first, hfirst, bind_eq_ok.2 ⟨rest, hrest, rfl⟩⟩⟩
  induction g using Group.by_patterns generalizing d with
  | nil => exact ⟨[], rfl⟩
  | statement s ps ih =>
    rw [Group.writable_cons, Pattern.writable_statement] at h
    obtain ⟨l, hl⟩ := exists_statementLine h.1 d
    exact append ⟨_, bind_eq_ok.2 ⟨l, hl, rfl⟩⟩ (ih h.2 d)
  | optional g ps ihg ih =>
    rw [Group.writable_cons, Pattern.writable_optional] at h
    obtain ⟨inside, hinside⟩ := ihg h.1 (d + 1)
    exact append ⟨_, bind_eq_ok.2 ⟨inside, hinside, rfl⟩⟩ (ih h.2 d)
  | union gs ps ihg ih =>
    rw [Group.writable_cons, Pattern.writable_union] at h
    exact append (exists_alternativeLines fun g hg => ihg g hg (h.1 g hg) (d + 1)) (ih h.2 d)
  | filter condition ps ih =>
    rw [Group.writable_cons, Pattern.writable_filter] at h
    obtain ⟨text, htext⟩ := exists_expression h.1
    exact append ⟨_, bind_eq_ok.2 ⟨text, htext, rfl⟩⟩ (ih h.2 d)
  | minus g ps ihg ih =>
    rw [Group.writable_cons, Pattern.writable_minus] at h
    obtain ⟨inside, hinside⟩ := ihg h.1 (d + 1)
    exact append ⟨_, bind_eq_ok.2 ⟨inside, hinside, rfl⟩⟩ (ih h.2 d)

end Sparql

/-- The two queries to the store can be written if the entities in them and the keys of the order
can be. -/
theorem StoreQuery.exists_emit {stored : StoreQuery}
    (htemplate : ∀ s ∈ stored.content.template, s.Writable) (hbody : stored.content.body.Writable)
    (horder : ∀ c ∈ stored.content.orderBy, Sparql.Writable (.var c.key))
    (hmain : Sparql.Writable (.var stored.count.mainResource))
    (hcount : stored.count.body.Writable) : ∃ texts, stored.emit = .ok texts := by
  have whereLines : ∀ {body : Group}, body.Writable → ∃ ls, Sparql.whereLines body = .ok ls := by
    intro body hbody
    obtain ⟨ls, hls⟩ := Sparql.exists_groupLines hbody 1
    exact ⟨_, bind_eq_ok.2 ⟨ls, hls, rfl⟩⟩
  have orderLines : ∃ ls, Sparql.orderLines stored.content.orderBy = .ok ls := by
    have hcriteria : ∀ c ∈ stored.content.orderBy, ∃ text, Sparql.criterionTerm c = .ok text := by
      intro c hc
      obtain ⟨text, htext⟩ := horder c hc
      exact ⟨_, bind_eq_ok.2 ⟨text, htext, rfl⟩⟩
    obtain ⟨texts, htexts⟩ := exists_mapM_ok hcriteria
    cases horder : stored.content.orderBy with
    | nil => exact ⟨[], rfl⟩
    | cons c cs => exact ⟨_, bind_eq_ok.2 ⟨texts, horder ▸ htexts, rfl⟩⟩
  obtain ⟨template, htemplate⟩ := exists_mapM_ok fun s hs =>
    Sparql.exists_statementLine (htemplate s hs) 1
  obtain ⟨body, hbody⟩ := whereLines hbody
  obtain ⟨order, horder⟩ := orderLines
  obtain ⟨main, hmain⟩ := hmain
  obtain ⟨counted, hcounted⟩ := whereLines hcount
  have hcontent : ∃ text, Sparql.contentText stored.content = .ok text :=
    ⟨_, bind_eq_ok.2 ⟨template, htemplate,
      bind_eq_ok.2 ⟨body, hbody, bind_eq_ok.2 ⟨order, horder, rfl⟩⟩⟩⟩
  have hcount : ∃ text, Sparql.countText stored.count = .ok text :=
    ⟨_, bind_eq_ok.2 ⟨main, hmain, bind_eq_ok.2 ⟨counted, hcounted, rfl⟩⟩⟩
  obtain ⟨content, hcontent⟩ := hcontent
  obtain ⟨count, hcount⟩ := hcount
  exact ⟨_, bind_eq_ok.2 ⟨content, hcontent, bind_eq_ok.2 ⟨count, hcount, rfl⟩⟩⟩

end OntoQuery
