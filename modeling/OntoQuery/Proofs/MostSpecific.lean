import OntoQuery.Proofs.Constraints

/-!
# The most specific constraint

What the search for an inherited constraint finds (`Ontology.Inherits`, `inherited_most_specific`).
The search follows a rule that is about one generation (`Ontology.constraintFrom`): from what the
direct superproperties have follows what the property has. Its bound is never felt, since each
generation has fewer properties above it, so what is found obeys the rule without any bound
(`constraint_rule`). Every value property is below `Base.hasValue`, which has values as its objects,
so no value property is without a type of its objects (`objectType_ne_none`).

The rule has four outcomes, told once by `Outcome`. Each answer belongs to one of them only, which
is how the answers are told apart. Unrelated types are no error where another one is below both
(`pergola_below_unrelated`).
-/

namespace OntoQuery.Ontology

/-- Neither of the two types is below the other. -/
def Unrelated (o : Ontology) (a b : Iri) : Prop :=
  o.isSubclassOf a b = false ∧ o.isSubclassOf b a = false

instance (o : Ontology) (a b : Iri) : Decidable (o.Unrelated a b) :=
  inferInstanceAs (Decidable (_ ∧ _))

/-- The type is one of those in `types` and below all of them. -/
structure Least (o : Ontology) (types : Iri → Prop) (type : Iri) : Prop where
  mem : types type
  below : ∀ other, types other → o.isSubclassOf type other = true

/-- Some property of the list has the type as its constraint. -/
def Offered (found : Iri → Except OntologyError (Option Iri)) (properties : List Iri) (type : Iri) :
    Prop :=
  ∃ property ∈ properties, found property = .ok (some type)

/-- The search has failed for some property of the list. -/
def Refused (found : Iri → Except OntologyError (Option Iri)) (properties : List Iri) : Prop :=
  ∃ property ∈ properties, ∃ e, found property = .error e

/-- A step from a property to one that it directly extends. -/
def Extends (o : Ontology) (sup sub : Iri) : Prop :=
  ∃ p, o.property? sub = some p ∧ sup ∈ p.directSuperproperties

/-- The constraint of a property, where `found` has those of its direct superproperties. -/
def constraintFrom (o : Ontology) (own : PropertyInfo → Option Iri)
    (found : Iri → Except OntologyError (Option Iri)) (iri : Iri) :
    Except OntologyError (Option Iri) :=
  match o.property? iri with
  | none => .ok none
  | some p =>
    match own p with
    | some type => .ok (some type)
    | none => do
      let inherited ← p.directSuperproperties.mapM found
      match o.meet (inherited.filterMap id).eraseDups with
      | .mostSpecific type => return some type
      | .unrelated first second => .error (.ambiguousConstraint iri first second)
      | .nothing => return none

/-- What `found` tells is each property's own constraint, or else the most specific one of those
that its direct superproperties have. -/
structure Inherits (o : Ontology) (own : PropertyInfo → Option Iri)
    (found : Iri → Except OntologyError (Option Iri)) : Prop where
  /-- Every way up ends. -/
  ends : WellFounded o.Extends
  /-- The search obeys the rule for one generation with nothing to stop it. -/
  rule : ∀ iri, found iri = o.constraintFrom own found iri
  /-- A search that may go further up finds the same. -/
  bound : ∀ steps ≥ o.properties.length, ∀ iri, o.inheritedConstraint own steps iri = found iri
  declared : ∀ {iri p type}, o.property? iri = some p → own p = some type →
    found iri = .ok (some type)
  some_iff : ∀ {iri p}, o.property? iri = some p → own p = none → ∀ type,
    found iri = .ok (some type) ↔
      ¬Refused found p.directSuperproperties ∧ o.Least (Offered found p.directSuperproperties) type
  least_unique : ∀ {types : Iri → Prop} {a b}, o.Least types a → o.Least types b → a = b
  error_iff : ∀ {iri p}, o.property? iri = some p → own p = none →
    ((∃ e, found iri = .error e) ↔
      Refused found p.directSuperproperties ∨
      (∃ a b, Offered found p.directSuperproperties a ∧ Offered found p.directSuperproperties b ∧
        o.Unrelated a b) ∧ ∀ type, ¬o.Least (Offered found p.directSuperproperties) type)
  /-- The two types of an error are unrelated, and the property is the one asked for or above it. -/
  error_names : ∀ {iri e}, found iri = .error e → ∃ property a b,
    e = .ambiguousConstraint property a b ∧ o.isSubpropertyOf iri property = true ∧ o.Unrelated a b
  none_iff : ∀ {iri p}, o.property? iri = some p →
    (found iri = .ok none ↔
      ∀ above q, o.isSubpropertyOf iri above = true → o.property? above = some q → own q = none)
  /-- Types that there are, are never passed over. -/
  nothing_iff : ∀ types, o.meet types = .nothing ↔ types = []

/-! ## Comparing types -/

theorem least_of_meet {o : Ontology} {types : List Iri} {type : Iri}
    (hmeet : o.meet types = .mostSpecific type) : o.Least (· ∈ types) type := by
  unfold meet at hmeet
  split at hmeet
  · rename_i found hfind
    cases hmeet
    have hall := List.find?_some hfind
    rw [List.all_eq_true] at hall
    exact ⟨List.mem_of_find?_eq_some hfind, hall⟩
  · dsimp only at hmeet
    split at hmeet <;> cases hmeet

theorem unrelated_of_meet {o : Ontology} {types : List Iri} {a b : Iri}
    (hmeet : o.meet types = .unrelated a b) :
    a ∈ types ∧ b ∈ types ∧ o.Unrelated a b ∧ ∀ type, ¬o.Least (· ∈ types) type := by
  unfold meet at hmeet
  split at hmeet
  · cases hmeet
  · rename_i hfind
    have hnone : ∀ type, ¬o.Least (· ∈ types) type := by
      intro type hleast
      apply List.find?_eq_none.1 hfind type hleast.mem
      rw [List.all_eq_true]
      exact hleast.below
    dsimp only at hmeet
    split at hmeet
    · rename_i first second rest hpairs
      cases hmeet
      have hpair := hpairs ▸ List.mem_cons_self (a := (a, b)) (l := rest)
      simp only [List.mem_flatMap, List.mem_map, List.mem_filter, Prod.mk.injEq] at hpair
      obtain ⟨_, ha, _, ⟨hb, hunrelated⟩, rfl, rfl⟩ := hpair
      exact ⟨ha, hb, by simpa [Unrelated] using hunrelated, hnone⟩
    · cases hmeet

/-- What the direct superproperties have is what is compared. -/
theorem mem_inherited {found : Iri → Except OntologyError (Option Iri)} {properties : List Iri}
    {inherited : List (Option Iri)} (hrun : properties.mapM found = .ok inherited) (type : Iri) :
    type ∈ (inherited.filterMap id).eraseDups ↔ Offered found properties type := by
  have hall := forall₂_of_mapM_ok hrun
  simp only [List.mem_eraseDups, List.mem_filterMap, id]
  constructor
  · rintro ⟨_, hmem, rfl⟩
    exact exists_of_mem_right hall hmem
  · rintro ⟨property, hmem, hfound⟩
    obtain ⟨r, hr, hrun⟩ := exists_of_mem_left hall hmem
    exact ⟨r, hr, by simpa [hfound] using hrun.symm⟩

/-! ## One generation -/

/-- What a property without a constraint of its own can have, by what those that it directly extends
have. -/
inductive Outcome (o : Ontology) (found : Iri → Except OntologyError (Option Iri)) (iri : Iri)
    (above : List Iri) : Except OntologyError (Option Iri) → Prop where
  | refused {sup : Iri} {e : OntologyError} (hsup : sup ∈ above) (hfound : found sup = .error e) :
    Outcome o found iri above (.error e)
  | mostSpecific {type : Iri} (hok : ¬Refused found above)
    (hleast : o.Least (Offered found above) type) : Outcome o found iri above (.ok (some type))
  | unrelated {a b : Iri} (hok : ¬Refused found above) (ha : Offered found above a)
    (hb : Offered found above b) (hunrelated : o.Unrelated a b)
    (hnone : ∀ type, ¬o.Least (Offered found above) type) :
    Outcome o found iri above (.error (.ambiguousConstraint iri a b))
  | nothing (hok : ¬Refused found above) (hnone : ∀ type, ¬Offered found above type) :
    Outcome o found iri above (.ok none)

/-- The rule asks `found` for the direct superproperties only. -/
theorem constraintFrom_congr {o : Ontology} {own : PropertyInfo → Option Iri}
    {f g : Iri → Except OntologyError (Option Iri)} {iri : Iri}
    (hsame : ∀ sup, o.Extends sup iri → f sup = g sup) :
    o.constraintFrom own f iri = o.constraintFrom own g iri := by
  unfold constraintFrom
  cases hp : o.property? iri with
  | none => rfl
  | some p =>
    have hrun : p.directSuperproperties.mapM f = p.directSuperproperties.mapM g :=
      mapM_congr fun sup hsup => hsame sup ⟨p, hp, hsup⟩
    simp only [hrun]

theorem inheritedConstraint_succ {o : Ontology} {own : PropertyInfo → Option Iri} (steps : Nat)
    (iri : Iri) : o.inheritedConstraint own (steps + 1) iri =
      o.constraintFrom own (o.inheritedConstraint own steps) iri :=
  rfl

theorem inheritedConstraint_unknown {o : Ontology} {own : PropertyInfo → Option Iri} {iri : Iri}
     (hp : o.property? iri = none) (steps : Nat) :
       o.inheritedConstraint own steps iri = .ok none := by
  cases steps with
  | zero => rfl
  | succ steps => simp only [inheritedConstraint, hp]

section
variable {defs : Definitions} {o : Ontology} (h : ofDefinitions defs = .ok o)
include h

theorem least_unique {types : Iri → Prop} {a b : Iri} (ha : o.Least types a)
    (hb : o.Least types b) : a = b :=
  (classes_exact h).isBelow_antisymm a b (ha.below b hb.mem) (hb.below a ha.mem)

theorem meet_eq_nothing_iff (types : List Iri) : o.meet types = .nothing ↔ types = [] := by
  constructor
  · intro hmeet
    by_contra hne
    exact meet_ne_nothing h hne hmeet
  · rintro rfl
    rfl

/-- **The outcomes of the rule.** -/
theorem constraintFrom_outcome {own : PropertyInfo → Option Iri}
    (found : Iri → Except OntologyError (Option Iri)) {iri : Iri} {p : PropertyInfo}
    (hp : o.property? iri = some p) (hown : own p = none) :
    o.Outcome found iri p.directSuperproperties (o.constraintFrom own found iri) := by
  unfold constraintFrom
  simp only [hp, hown]
  cases hrun : p.directSuperproperties.mapM found with
  | error e =>
    obtain ⟨before, sup, after, hsplit, _, hsup⟩ := mapM_eq_error.1 hrun
    exact .refused (by simp [hsplit]) hsup
  | ok inherited =>
    have hok : ¬Refused found p.directSuperproperties := by
      rintro ⟨sup, hsup, e, he⟩
      obtain ⟨r, _, hr⟩ := exists_of_mem_left (forall₂_of_mapM_ok hrun) hsup
      rw [he] at hr
      cases hr
    have hoffered : (· ∈ (inherited.filterMap id).eraseDups) =
        Offered found p.directSuperproperties :=
          funext fun type => propext (mem_inherited hrun type)
    change o.Outcome found iri p.directSuperproperties (match o.meet _ with
      | .mostSpecific type => .ok (some type)
      | .unrelated first second => .error (.ambiguousConstraint iri first second)
      | .nothing => .ok none)
    cases hmeet : o.meet (inherited.filterMap id).eraseDups with
    | mostSpecific type => exact .mostSpecific hok (hoffered ▸ least_of_meet hmeet)
    | unrelated a b =>
      obtain ⟨ha, hb, hunrelated, hnone⟩ := unrelated_of_meet hmeet
      rw [mem_inherited hrun] at ha hb
      exact .unrelated hok ha hb hunrelated (hoffered ▸ hnone)
    | nothing =>
      rw [meet_eq_nothing_iff h] at hmeet
      refine .nothing hok fun type htype => ?_
      rw [← mem_inherited hrun, hmeet] at htype
      cases htype

/-! ## All generations -/

theorem superproperties_lt_of_extends {sup sub : Iri} (hext : o.Extends sup sub) :
    (o.superproperties sup).length < (o.superproperties sub).length := by
  obtain ⟨p, hp, hsup⟩ := hext
  rw [directSuperproperties_eq h hp] at hsup
  exact superproperties_lt h hsup

theorem extends_wellFounded : WellFounded o.Extends :=
  Subrelation.wf (superproperties_lt_of_extends h)
    (measure fun iri => (o.superproperties iri).length).wf

/-- What a property extends is below nothing that the property is not below. -/
theorem isSubpropertyOf_of_extends {sup sub above : Iri} (hext : o.Extends sup sub)
    (habove : o.isSubpropertyOf sup above = true) : o.isSubpropertyOf sub above = true := by
  have hexact := properties_exact h
  obtain ⟨p, hp, hsup⟩ := hext
  rw [directSuperproperties_eq h hp] at hsup
  have hstep : o.isSubpropertyOf sub sup = true :=
    (hexact.isBelow_iff sub sup).2 (.inr ((hexact.above_iff sub sup).2 ⟨1, .parent hsup⟩))
  exact hexact.isBelow_trans sub sup above hstep habove

variable {own : PropertyInfo → Option Iri}

/-- Two bounds that leave a step for each property above find the same. -/
theorem inheritedConstraint_eq_of_lt {iri : Iri} {m n : Nat}
    (hm : (o.superproperties iri).length < m) (hn : (o.superproperties iri).length < n) :
    o.inheritedConstraint own m iri = o.inheritedConstraint own n iri := by
  induction m generalizing n iri with
  | zero => omega
  | succ m ih =>
    cases n with
    | zero => omega
    | succ n =>
      rw [inheritedConstraint_succ, inheritedConstraint_succ]
      apply constraintFrom_congr
      intro sup hext
      have hless := superproperties_lt_of_extends h hext
      exact ih (by omega) (by omega)

theorem inheritedConstraint_of_le {steps : Nat} (hsteps : o.properties.length ≤ steps) (iri : Iri) :
    o.inheritedConstraint own steps iri = o.inheritedConstraint own o.properties.length iri := by
  cases hp : o.property? iri with
  | none => rw [inheritedConstraint_unknown hp, inheritedConstraint_unknown hp]
  | some p =>
    have hless : (o.superproperties iri).length < o.properties.length :=
      superproperties_lt_properties h (by rw [hp]; rfl)
    exact inheritedConstraint_eq_of_lt h (by omega) hless

/-- **The bound of the search is never felt.** -/
theorem constraint_rule (own : PropertyInfo → Option Iri) (iri : Iri) :
    o.inheritedConstraint own o.properties.length iri =
      o.constraintFrom own (o.inheritedConstraint own o.properties.length) iri :=
  (inheritedConstraint_of_le h (Nat.le_succ _) iri).symm

/-! ## What is found -/

variable {found : Iri → Except OntologyError (Option Iri)}
  (hrule : ∀ iri, found iri = o.constraintFrom own found iri)
include hrule

theorem outcome_of_rule {iri : Iri} {p : PropertyInfo} (hp : o.property? iri = some p)
    (hown : own p = none) : o.Outcome found iri p.directSuperproperties (found iri) := by
  rw [hrule iri]
  exact constraintFrom_outcome h found hp hown

theorem found_eq_some_iff {iri : Iri} {p : PropertyInfo} (hp : o.property? iri = some p)
    (hown : own p = none) (type : Iri) :
    found iri = .ok (some type) ↔
      ¬Refused found p.directSuperproperties ∧
        o.Least (Offered found p.directSuperproperties) type := by
  have houtcome := outcome_of_rule h hrule hp hown
  generalize found iri = r at houtcome
  constructor
  · rintro rfl
    cases houtcome with
    | mostSpecific hok hleast => exact ⟨hok, hleast⟩
  · rintro ⟨hok, hleast⟩
    cases houtcome with
    | refused hsup hfound => exact absurd ⟨_, hsup, _, hfound⟩ hok
    | mostSpecific _ hother => rw [least_unique h hother hleast]
    | unrelated _ _ _ _ hnone => exact absurd hleast (hnone type)
    | nothing _ hnone => exact absurd hleast.mem (hnone type)

theorem found_eq_error_iff {iri : Iri} {p : PropertyInfo} (hp : o.property? iri = some p)
    (hown : own p = none) :
    (∃ e, found iri = .error e) ↔
      Refused found p.directSuperproperties ∨
      (∃ a b, Offered found p.directSuperproperties a ∧ Offered found p.directSuperproperties b ∧
        o.Unrelated a b) ∧ ∀ type, ¬o.Least (Offered found p.directSuperproperties) type := by
  have houtcome := outcome_of_rule h hrule hp hown
  generalize found iri = r at houtcome
  constructor
  · rintro ⟨e, rfl⟩
    cases houtcome with
    | refused hsup hfound => exact .inl ⟨_, hsup, _, hfound⟩
    | unrelated _ ha hb hunrelated hnone => exact .inr ⟨⟨_, _, ha, hb, hunrelated⟩, hnone⟩
  · intro hfault
    cases houtcome with
    | refused => exact ⟨_, rfl⟩
    | unrelated => exact ⟨_, rfl⟩
    | mostSpecific hok hleast =>
      have hnone := (hfault.resolve_left hok).2
      exact absurd hleast (hnone _)
    | nothing hok hnone =>
      obtain ⟨⟨a, _, ha, _⟩, _⟩ := hfault.resolve_left hok
      exact absurd ha (hnone a)

/-- An error comes from the property itself or, unchanged, from above. -/
theorem found_error_names {iri : Iri} {e : OntologyError} (hfound : found iri = .error e) :
    ∃ property a b, e = .ambiguousConstraint property a b ∧
      o.isSubpropertyOf iri property = true ∧ o.Unrelated a b := by
  induction iri using (extends_wellFounded h).induction with
  | _ iri ih =>
    have hfrom := hfound
    rw [hrule iri] at hfrom
    cases hp : o.property? iri with
    | none => simp [constraintFrom, hp] at hfrom
    | some p =>
      cases hown : own p with
      | some type => simp [constraintFrom, hp, hown] at hfrom
      | none =>
        have houtcome := outcome_of_rule h hrule hp hown
        rw [hfound] at houtcome
        cases houtcome with
        | refused hsup hfound =>
          have hext : o.Extends _ iri := ⟨p, hp, hsup⟩
          obtain ⟨property, a, b, he, hbelow, hunrelated⟩ := ih _ hext hfound
          exact ⟨property, a, b, he, isSubpropertyOf_of_extends h hext hbelow, hunrelated⟩
        | unrelated _ _ _ hunrelated _ =>
          exact ⟨iri, _, _, rfl, (properties_exact h).isBelow_refl iri, hunrelated⟩

/-- Where nothing at or above a property declares a constraint, nothing is found. -/
theorem found_eq_none {iri : Iri}
    (hnone : ∀ above q, o.isSubpropertyOf iri above = true → o.property? above = some q →
      own q = none) :
    found iri = .ok none := by
  induction iri using (extends_wellFounded h).induction with
  | _ iri ih =>
    cases hp : o.property? iri with
    | none => simp [hrule iri, constraintFrom, hp]
    | some p =>
      have hown := hnone iri p ((properties_exact h).isBelow_refl iri) hp
      have habove : ∀ sup ∈ p.directSuperproperties, found sup = .ok none := by
        intro sup hsup
        have hext : o.Extends sup iri := ⟨p, hp, hsup⟩
        apply ih sup hext
        intro above q hbelow hq
        exact hnone above q (isSubpropertyOf_of_extends h hext hbelow) hq
      have hoffered : ∀ type, ¬Offered found p.directSuperproperties type := by
        rintro type ⟨sup, hsup, hfound⟩
        rw [habove sup hsup] at hfound
        cases hfound
      have houtcome := outcome_of_rule h hrule hp hown
      generalize found iri = r at houtcome
      cases houtcome with
      | refused hsup hfound =>
        rw [habove _ hsup] at hfound
        cases hfound
      | mostSpecific _ hleast => exact absurd hleast.mem (hoffered _)
      | unrelated _ ha => exact absurd ha (hoffered _)
      | nothing => rfl

/-- Where nothing is found, nothing at or above the property declares a constraint. -/
theorem own_eq_none_of_found {iri : Iri} {p : PropertyInfo} (hp : o.property? iri = some p)
    (hfound : found iri = .ok none) {above : Iri} {q : PropertyInfo}
    (hbelow : o.isSubpropertyOf iri above = true) (hq : o.property? above = some q) :
      own q = none := by
  induction iri using (extends_wellFounded h).induction generalizing p with
  | _ iri ih =>
    have hexact := properties_exact h
    cases hown : own p with
    | some type =>
      rw [hrule iri] at hfound
      simp [constraintFrom, hp, hown] at hfound
    | none =>
      have houtcome := outcome_of_rule h hrule hp hown
      rw [hfound] at houtcome
      cases houtcome with
      | nothing hok hoffered =>
        cases (hexact.isBelow_iff iri above).1 hbelow with
        | inl heq =>
          subst heq
          rw [hp] at hq
          exact Option.some.inj hq ▸ hown
        | inr habove =>
          -- The direct superproperty on the way up has no constraint either, or it would be
          -- inherited.
          obtain ⟨n, hchain⟩ := (hexact.above_iff iri above).1 habove
          obtain ⟨parent, hparent, hrest⟩ := hchain.first
          have hsup : parent ∈ p.directSuperproperties := by
            rw [directSuperproperties_eq h hp]
            exact hparent
          have hnone : found parent = .ok none := by
            cases hr : found parent with
            | error e => exact absurd ⟨parent, hsup, e, hr⟩ hok
            | ok r =>
              cases r with
              | none => rfl
              | some type => exact absurd ⟨parent, hsup, hr⟩ (hoffered type)
          have hdefined : (o.property? parent).isSome = true :=
            property_of_mem_superproperties h ((hexact.above_iff iri parent).2 ⟨1, .parent hparent⟩)
          obtain ⟨_, hp'⟩ := Option.isSome_iff_exists.1 hdefined
          apply ih parent ⟨p, hp, hsup⟩ hp' hnone
          rw [hexact.isBelow_iff]
          exact hrest.imp id fun hrest => (hexact.above_iff parent above).2 hrest

end

/-- **A value property has a type of its objects**, or those that it inherits are unrelated. -/
theorem objectType_ne_none {defs : Definitions} {o : Ontology} (hbuild : build defs = .ok o)
    {iri : Iri} (hvalue : o.isValueProperty iri = true) : o.objectType iri ≠ .ok none := by
  rw [isValueProperty, Bool.and_eq_true] at hvalue
  obtain ⟨hiri, hsub⟩ := hvalue
  let root : PropertyDefinition :=
    { iri := Base.hasValue, subjectType := some Base.resource, objectType := some Base.value }
  have hroot : root ∈ (Definitions.skeleton ++ defs).properties :=
    List.mem_append_left _ List.mem_cons_self
  obtain ⟨p, hp⟩ := Option.isSome_iff_exists.1 hiri
  obtain ⟨q, hq⟩ : ∃ q, o.property? Base.hasValue = some q := by
    rw [← Option.isSome_iff_exists, Option.isSome_iff_ne_none, ne_eq, property?_eq_none_iff hbuild,
      not_not]
    exact List.mem_map.2 ⟨root, hroot, rfl⟩
  intro hnone
  have hown : q.objectType = none :=
    own_eq_none_of_found hbuild (constraint_rule hbuild (·.objectType)) hp hnone hsub hq
  obtain ⟨d, hd, hname, _, _, hobject⟩ := defined_of_property? hbuild hq
  obtain ⟨_, _, hb⟩ := built_of_ofDefinitions hbuild
  have hnames := hb.propertiesOnce
  rw [Definitions.names_propertyHierarchy] at hnames
  have heq : d = root := List.inj_on_of_nodup_map hnames hd hroot hname
  rw [hobject, heq] at hown
  cases hown

/-- What is looked for among all generations is the most specific constraint. -/
theorem inherits_of_build {defs : Definitions} {o : Ontology} (h : ofDefinitions defs = .ok o)
    (own : PropertyInfo → Option Iri) :
    o.Inherits own (o.inheritedConstraint own o.properties.length) where
  ends := extends_wellFounded h
  rule := constraint_rule h own
  bound steps hsteps iri := inheritedConstraint_of_le h hsteps iri
  declared hp hown := by simp [constraint_rule h own, constraintFrom, hp, hown]
  some_iff hp hown type := found_eq_some_iff h (constraint_rule h own) hp hown type
  least_unique ha hb := least_unique h ha hb
  error_iff hp hown := found_eq_error_iff h (constraint_rule h own) hp hown
  error_names hfound := found_error_names h (constraint_rule h own) hfound
  none_iff hp := ⟨fun hfound _ _ => own_eq_none_of_found h (constraint_rule h own) hp hfound,
    found_eq_none h (constraint_rule h own)⟩
  nothing_iff := meet_eq_nothing_iff h

end OntoQuery.Ontology

namespace OntoQuery

/-- **The constraints of a property are the most specific ones that it inherits**, those of its
objects and those of its subjects. -/
theorem inherited_most_specific {defs : Definitions} {o : Ontology}
    (hbuild : Ontology.build defs = .ok o) :
    o.Inherits (·.objectType) o.objectType ∧ o.Inherits (·.subjectType) o.subjectType :=
  ⟨Ontology.inherits_of_build hbuild (·.objectType),
    Ontology.inherits_of_build hbuild (·.subjectType)⟩

/-- Two properties with constraints in one line, two whose constraints are unrelated, and one that
declares none and extends none that does. -/
theorem inherited_most_specific_places :
    let house : Iri := "http://www.knora.org/ontology/0001/house#House"
    let villa : Iri := "http://www.knora.org/ontology/0001/house#Villa"
    let garden : Iri := "http://www.knora.org/ontology/0001/house#Garden"
    let hasHouse : Iri := "http://www.knora.org/ontology/0001/house#hasHouse"
    let hasVilla : Iri := "http://www.knora.org/ontology/0001/house#hasVilla"
    let hasGarden : Iri := "http://www.knora.org/ontology/0001/house#hasGarden"
    let hasHome : Iri := "http://www.knora.org/ontology/0001/house#hasHome"
    let hasPlot : Iri := "http://www.knora.org/ontology/0001/house#hasPlot"
    let defs : Definitions :=
      { classes := [⟨house, [Base.resource], .empty⟩, ⟨villa, [house], .empty⟩,
          ⟨garden, [Base.resource], .empty⟩]
        properties := [⟨hasHouse, [], none, some house⟩, ⟨hasVilla, [], none, some villa⟩,
          ⟨hasGarden, [], none, some garden⟩, ⟨hasHome, [hasHouse, hasVilla], none, none⟩,
          ⟨hasPlot, [hasHome, hasGarden], none, none⟩] }
    ∃ o, Ontology.build defs = .ok o ∧
      o.objectType hasHome = .ok (some villa) ∧
      o.objectType hasPlot = .error (.ambiguousConstraint hasPlot villa garden) ∧
      o.subjectType hasPlot = .ok none ∧
      o.Inherits (·.objectType) o.objectType ∧ o.Inherits (·.subjectType) o.subjectType := by
  intro house villa garden hasHouse hasVilla hasGarden hasHome hasPlot defs
  have hrun : ((Ontology.build defs).toOption.map fun o => decide (
      o.objectType hasHome = .ok (some villa) ∧
      o.objectType hasPlot = .error (.ambiguousConstraint hasPlot villa garden) ∧
      o.subjectType hasPlot = .ok none)) = some true := by
    decide +kernel
  obtain ⟨o, hbuild, hhome, hplot, hsubject⟩ := Ontology.exists_built hrun
  exact ⟨o, hbuild, hhome, hplot, hsubject, inherited_most_specific hbuild⟩

/-- A garden and a house are unrelated, and a property that could have either one as its object is
not refused if it could also have a pergola, which is both. -/
theorem pergola_below_unrelated :
    let house : Iri := "http://www.knora.org/ontology/0001/house#House"
    let garden : Iri := "http://www.knora.org/ontology/0001/house#Garden"
    let pergola : Iri := "http://www.knora.org/ontology/0001/house#Pergola"
    let hasHouse : Iri := "http://www.knora.org/ontology/0001/house#hasHouse"
    let hasGarden : Iri := "http://www.knora.org/ontology/0001/house#hasGarden"
    let hasPergola : Iri := "http://www.knora.org/ontology/0001/house#hasPergola"
    let hasPlace : Iri := "http://www.knora.org/ontology/0001/house#hasPlace"
    let defs : Definitions :=
      { classes := [⟨garden, [Base.resource], .empty⟩, ⟨house, [Base.resource], .empty⟩,
          ⟨pergola, [garden, house], .empty⟩]
        properties := [⟨hasGarden, [], none, some garden⟩, ⟨hasHouse, [], none, some house⟩,
          ⟨hasPergola, [], none, some pergola⟩,
          ⟨hasPlace, [hasGarden, hasHouse, hasPergola], none, none⟩] }
    ∃ o p, Ontology.build defs = .ok o ∧ o.property? hasPlace = some p ∧ p.objectType = none ∧
      o.objectType hasPlace = .ok (some pergola) ∧
      ¬((∃ e, o.objectType hasPlace = .error e) ↔
        Ontology.Refused o.objectType p.directSuperproperties ∨
        ∃ a b, Ontology.Offered o.objectType p.directSuperproperties a ∧
          Ontology.Offered o.objectType p.directSuperproperties b ∧ o.Unrelated a b) := by
  intro house garden pergola hasHouse hasGarden hasPergola hasPlace defs
  have hrun : ((Ontology.build defs).toOption.map fun o => decide (
      ((o.property? hasPlace).map fun p => (p.objectType, p.directSuperproperties)) =
        some (none, [hasGarden, hasHouse, hasPergola]) ∧
      o.objectType hasGarden = .ok (some garden) ∧ o.objectType hasHouse = .ok (some house) ∧
      o.Unrelated garden house ∧ o.objectType hasPlace = .ok (some pergola))) = some true := by
    decide +kernel
  obtain ⟨o, hbuild, hp, hgarden, hhouse, hunrelated, hplace⟩ := Ontology.exists_built hrun
  obtain ⟨p, hp, hinfo⟩ := Option.map_eq_some_iff.1 hp
  obtain ⟨hown, hdirect⟩ := Prod.mk.inj hinfo
  refine ⟨o, p, hbuild, hp, hown, hplace, fun hiff => ?_⟩
  obtain ⟨e, he⟩ := hiff.2 (.inr ⟨garden, house, ⟨hasGarden, by simp [hdirect], hgarden⟩,
    ⟨hasHouse, by simp [hdirect], hhouse⟩, hunrelated⟩)
  rw [hplace] at he
  cases he

end OntoQuery
