import OntoQuery.Proofs.Subsumption

/-!
# Which definitions make an ontology

Definitions make an ontology exactly if they are well formed (`Definitions.WellFormed`): each
cardinality is well written, each class and each property is defined once, what they extend is
defined, and nothing is above itself. What is above itself is told last, and the first IRI that is
on a cycle is named, classes before properties (`ontology_build_exact`).

The search upwards looks for its start only. It ends on any other cycle since a level with nothing
new is the last one, and the bound on its levels is never what ends it (`Hierarchy.climb_of_lt`).
The tables are filled entry by entry where every entry exists (`Hierarchy.enterAbove?_eq`,
`Hierarchy.enterBelow?_eq`).
-/

namespace OntoQuery

namespace Hierarchy

/-! ## Cycles -/

/-- The IRI is above itself. -/
def OnCycle (h : Hierarchy) (iri : Iri) : Prop :=
  ∃ n, h.Chain iri n iri

/-- Nothing is above itself. -/
def Acyclic (h : Hierarchy) : Prop :=
  ∀ iri, ¬ h.OnCycle iri

/-- The IRI is above itself, and none that is defined before it is. -/
def FirstOnCycle (h : Hierarchy) (iri : Iri) : Prop :=
  ∃ before after, h.names = before ++ iri :: after ∧ h.OnCycle iri ∧
    ∀ other ∈ before, ¬ h.OnCycle other

/-- The entry of the closure for an entry of the hierarchy. -/
def searched (h : Hierarchy) (e : Iri × List Iri) : Except Iri (Iri × List Iri) :=
  (h.ancestors? e.1).elim (.error e.1) fun above => .ok (e.1, above)

theorem closure_eq (h : Hierarchy) : h.closure = h.mapM h.searched := by
  unfold closure
  congr 1
  funext e
  cases hf : h.ancestors? e.1 <;> simp [searched, hf]

section
variable {h : Hierarchy} (hr : h.Rooted)
include hr

/-- **The bound on its levels never ends the search.** -/
theorem climb_of_lt (iri : Iri) {steps : Nat} (hsteps : h.length < steps) :
    h.climb iri steps (h.parents iri) [] = h.ancestors? iri := by
  induction hsteps with
  | refl => rfl
  | step hlt ih =>
    rw [← ih]
    apply climb_succ (fun _ _ hs => hs.next) (fun _ _ hs => hs.seen_le hr) (h.searched_parents iri)
    exact .inr (by rwa [List.length_nil, Nat.add_zero])

/-- **The search fails exactly on an IRI that is above itself.** -/
theorem ancestors?_eq_none_iff {iri : Iri} : h.ancestors? iri = none ↔ h.OnCycle iri := by
  constructor
  · intro hnone
    obtain ⟨level, seen, hs, hstart⟩ :=
      climb_none (fun _ _ hs => Searched.next hs) (h.searched_parents iri) hnone
    exact hs.reached iri (.inr hstart)
  · intro hcycle
    cases hf : h.ancestors? iri with
    | none => rfl
    | some found =>
      have hs := ancestors_searched hr hf
      exact absurd ((hs.mem_iff iri).2 hcycle) hs.apart

theorem exists_ancestors_iff {iri : Iri} : (∃ found, h.ancestors? iri = some found) ↔
    ¬ h.OnCycle iri := by
  rw [← ancestors?_eq_none_iff hr, ← ne_eq, Option.ne_none_iff_exists']

theorem closure_ok_iff : (∃ table, h.closure = .ok table) ↔ h.Acyclic := by
  constructor
  · rintro ⟨table, hc⟩ iri ⟨n, hchain⟩
    obtain ⟨hnames, hentries⟩ := closure_entries hc
    have hi : iri ∈ table.names := hnames ▸ chain_starts hchain
    obtain ⟨e, he, rfl⟩ := List.mem_map.1 hi
    exact (exists_ancestors_iff hr).1 ⟨_, hentries e he⟩ ⟨n, hchain⟩
  · intro hacyclic
    rw [closure_eq]
    apply exists_mapM_ok
    intro e _
    obtain ⟨found, hf⟩ := (exists_ancestors_iff hr).2 (hacyclic e.1)
    exact ⟨(e.1, found), by rw [searched, hf]; rfl⟩

/-- **A closure that fails names the first IRI on a cycle.** -/
theorem closure_error_iff {iri : Iri} : h.closure = .error iri ↔ h.FirstOnCycle iri := by
  have tells : ∀ e : Iri × List Iri, ∀ name,
      h.searched e = .error name ↔ e.1 = name ∧ h.OnCycle name := by
    intro e name
    rw [← ancestors?_eq_none_iff hr]
    cases hf : h.ancestors? e.1 with
    | none =>
      simp only [searched, hf, Option.elim_none, Except.error.injEq]
      constructor
      · rintro rfl
        exact ⟨rfl, hf⟩
      · exact fun hcycle => hcycle.1
    | some found =>
      simp only [searched, hf, Option.elim_some, reduceCtorEq, false_iff, not_and]
      rintro rfl
      simp [hf]
  have passes : ∀ e : Iri × List Iri, (∃ r, h.searched e = .ok r) ↔ ¬ h.OnCycle e.1 := by
    intro e
    rw [← exists_ancestors_iff hr]
    cases hf : h.ancestors? e.1 <;> simp [searched, hf]
  rw [closure_eq, mapM_eq_error]
  constructor
  · rintro ⟨before, e, after, heq, hbefore, he⟩
    obtain ⟨rfl, hcycle⟩ := (tells e iri).1 he
    refine ⟨names before, names after, by simp [names, heq], hcycle, ?_⟩
    intro other ho
    obtain ⟨b, hb, rfl⟩ := List.mem_map.1 ho
    exact (passes b).1 (hbefore b hb)
  · rintro ⟨before, after, heq, hcycle, hbefore⟩
    obtain ⟨entries, rest, rfl, hentries, hrest⟩ := List.map_eq_append_iff.1 heq
    obtain ⟨e, others, rfl, he, _⟩ := List.map_eq_cons_iff.1 hrest
    refine ⟨entries, e, others, rfl, ?_, (tells e iri).2 ⟨he, hcycle⟩⟩
    intro b hb
    exact (passes b).2 (hbefore b.1 (hentries ▸ List.mem_map_of_mem hb))

end

/-! ## Filling the tables -/

/-- The hierarchy with a list for each of the names. -/
def tabled (names : List Iri) (list : Iri → List Iri) : Hierarchy :=
  names.map fun iri => (iri, list iri)

/-- Changes the list of an entry; there has to be one. -/
def alter? (h : Hierarchy) (iri : Iri) (f : List Iri → List Iri) : Option Hierarchy :=
  if iri ∈ h.names then some (h.map fun e => if e.1 = iri then (e.1, f e.2) else e) else none

/-- Enters what is above each IRI of the table under it. -/
def enterAbove? (table : Hierarchy) (entered : Hierarchy) : Option Hierarchy :=
  table.foldlM (fun acc e => acc.alter? e.1 fun _ => e.2) entered

/-- Enters an IRI under each of those above it. -/
def enterUnder? (iri : Iri) (above : List Iri) (entered : Hierarchy) : Option Hierarchy :=
  above.foldlM (fun acc a => acc.alter? a (· ++ [iri])) entered

/-- Enters each IRI of the table under each of those above it. -/
def enterBelow? (table : Hierarchy) (entered : Hierarchy) : Option Hierarchy :=
  table.foldlM (fun acc e => enterUnder? e.1 e.2 acc) entered

theorem alter?_tabled {names : List Iri} {iri : Iri} (hi : iri ∈ names) (list : Iri → List Iri)
    (f : List Iri → List Iri) :
    (tabled names list).alter? iri f =
      some (tabled names (Function.update list iri (f (list iri)))) := by
  have hm : iri ∈ (tabled names list).names := by simpa [tabled, Hierarchy.names] using hi
  rw [alter?, if_pos hm]
  simp only [tabled, List.map_map, Option.some.injEq]
  apply List.map_congr_left
  intro other _
  by_cases heq : other = iri
  · simp [heq]
  · simp [heq]

theorem enterAbove?_tabled {names : List Iri} {table : Hierarchy} (hn : table.names.Nodup)
    (hin : ∀ e ∈ table, e.1 ∈ names) (list : Iri → List Iri) :
    enterAbove? table (tabled names list) =
      some (tabled names fun iri => (table.lookup iri).getD (list iri)) := by
  induction table generalizing list with
  | nil => rfl
  | cons e es ih =>
    obtain ⟨hnew, hes⟩ := List.nodup_cons.1 hn
    have hrest := ih hes (fun d hd => hin d (List.mem_cons_of_mem _ hd))
      (Function.update list e.1 e.2)
    simp only [enterAbove?, List.foldlM_cons, alter?_tabled (hin e List.mem_cons_self)] at hrest ⊢
    refine Eq.trans hrest (congrArg _ (congrArg _ (funext fun iri => ?_)))
    rw [List.lookup_cons]
    by_cases heq : iri = e.1
    · subst heq
      -- Nothing later in the table is entered under the same name.
      have hnone : List.lookup e.1 es = none := by
        rw [List.lookup_eq_none_iff]
        intro d hd
        simp only [bne_iff_ne, ne_eq]
        intro heq
        exact hnew (heq ▸ List.mem_map_of_mem hd)
      simp [hnone]
    · simp [heq, beq_eq_false_iff_ne.2 heq]

theorem enterUnder?_tabled {names above : List Iri} (hn : above.Nodup)
    (hin : ∀ a ∈ above, a ∈ names) (iri : Iri) (list : Iri → List Iri) :
    enterUnder? iri above (tabled names list) =
      some (tabled names fun a => list a ++ if a ∈ above then [iri] else []) := by
  induction above generalizing list with
  | nil => simp [enterUnder?]
  | cons a as ih =>
    obtain ⟨hnew, has⟩ := List.nodup_cons.1 hn
    have hrest := ih has (fun b hb => hin b (List.mem_cons_of_mem _ hb))
      (Function.update list a (list a ++ [iri]))
    simp only [enterUnder?, List.foldlM_cons, alter?_tabled (hin a List.mem_cons_self)] at hrest ⊢
    refine Eq.trans hrest (congrArg _ (congrArg _ (funext fun b => ?_)))
    by_cases heq : b = a
    · subst heq
      simp [hnew]
    · simp [heq]

theorem enterBelow?_tabled {names : List Iri} {table : Hierarchy} (hn : ∀ e ∈ table, e.2.Nodup)
    (hin : ∀ e ∈ table, ∀ a ∈ e.2, a ∈ names) (list : Iri → List Iri) :
    enterBelow? table (tabled names list) =
      some (tabled names fun iri => list iri ++ table.below iri) := by
  induction table generalizing list with
  | nil => simp [enterBelow?, below]
  | cons e es ih =>
    have hfirst := enterUnder?_tabled (hn e List.mem_cons_self) (hin e List.mem_cons_self) e.1 list
    have hrest := ih (fun d hd => hn d (List.mem_cons_of_mem _ hd))
      (fun d hd => hin d (List.mem_cons_of_mem _ hd))
      (fun a => list a ++ if a ∈ e.2 then [e.1] else [])
    simp only [enterBelow?, List.foldlM_cons, hfirst] at hrest ⊢
    refine Eq.trans hrest (congrArg _ (congrArg _ (funext fun iri => ?_)))
    by_cases ha : iri ∈ e.2
    · simp [below, ha]
    · simp [below, ha]

section
variable {h table : Hierarchy} (hc : h.closure = .ok table)
include hc

/-- **What is above each IRI is entered without a miss.** -/
theorem enterAbove?_eq (hn : h.names.Nodup) :
    enterAbove? table (tabled h.names fun _ => []) = some table := by
  obtain ⟨hnames, _⟩ := closure_entries hc
  rw [← hnames] at hn ⊢
  have hin : ∀ e ∈ table, e.1 ∈ table.names := fun e he => List.mem_map_of_mem he
  rw [enterAbove?_tabled hn hin]
  have hself : ∀ e ∈ table, (e.1, (table.lookup e.1).getD []) = e := by
    intro e he
    exact congrArg (Prod.mk e.1) (parents_of_mem hn he)
  simp only [tabled, names, List.map_map, Option.some.injEq]
  exact (List.map_congr_left hself).trans (List.map_id table)

/-- **Each IRI is entered under all that is above it without a miss.** -/
theorem enterBelow?_eq (hr : h.Rooted) :
    enterBelow? table (tabled h.names fun _ => []) = some (tabled h.names table.below) := by
  obtain ⟨_, hentries⟩ := closure_entries hc
  rw [enterBelow?_tabled]
  · rfl
  · intro e he
    exact (ancestors_searched hr (hentries e he)).nodup
  · intro e he a ha
    obtain ⟨n, hchain⟩ := (ancestors_searched hr (hentries e he)).reached a (.inl ha)
    exact hr.chain_ends hchain

end

end Hierarchy

/-! ## The checks before the closures -/

namespace Definitions

/-- What is checked of definitions before their relations are closed. -/
structure Checked (defs : Definitions) : Prop where
  cardinalities : ∀ c ∈ defs.classes, ∀ e ∈ c.cardinalities.entries,
    e.2 ∈ ["1", "0-1", "0-n", "1-n"]
  classesOnce : (defs.classes.map (·.iri)).Nodup
  propertiesOnce : (defs.properties.map (·.iri)).Nodup
  superclasses : ∀ c ∈ defs.classes, ∀ s ∈ c.superclasses, s ∈ defs.classes.map (·.iri)
  superproperties : ∀ p ∈ defs.properties, ∀ s ∈ p.superproperties, s ∈ defs.properties.map (·.iri)

/-- Definitions that make an ontology. -/
structure WellFormed (defs : Definitions) : Prop extends Checked defs where
  classesAcyclic : defs.classHierarchy.Acyclic
  propertiesAcyclic : defs.propertyHierarchy.Acyclic

end Definitions

theorem Cardinality.exists_parse_iff {value : String} :
    (∃ c, parse? value = some c) ↔ value ∈ ["1", "0-1", "0-n", "1-n"] := by
  unfold parse?
  split <;> simp_all

namespace Hierarchy

theorem orphan?_eq_none_iff {h : Hierarchy} :
    h.orphan? = none ↔ ∀ e ∈ h, ∀ parent ∈ e.2, parent ∈ h.names := by
  simp [orphan?, names]

end Hierarchy

section
variable {defs : Definitions} (hc : defs.Checked)
include hc

theorem Definitions.Checked.classes_orphan : defs.classHierarchy.orphan? = none := by
  rw [Hierarchy.orphan?_eq_none_iff, names_classHierarchy]
  intro e he
  obtain ⟨c, hm, rfl⟩ := List.mem_map.1 he
  exact hc.superclasses c hm

theorem Definitions.Checked.properties_orphan : defs.propertyHierarchy.orphan? = none := by
  rw [Hierarchy.orphan?_eq_none_iff, names_propertyHierarchy]
  intro e he
  obtain ⟨p, hm, rfl⟩ := List.mem_map.1 he
  exact hc.superproperties p hm

theorem Definitions.Checked.classes_rooted : defs.classHierarchy.Rooted :=
  Hierarchy.rooted_of_orphan hc.classes_orphan

theorem Definitions.Checked.properties_rooted : defs.propertyHierarchy.Rooted :=
  Hierarchy.rooted_of_orphan hc.properties_orphan

end

namespace Ontology

theorem firstRepeated?_eq_none_iff {iris seen : List Iri} :
    firstRepeated? seen iris = none ↔ iris.Nodup ∧ ∀ iri ∈ iris, iri ∉ seen := by
  constructor
  · exact nodup_of_firstRepeated
  · rintro ⟨hn, hs⟩
    induction iris generalizing seen with
    | nil => rfl
    | cons iri iris ih =>
      obtain ⟨hnew, hn⟩ := List.nodup_cons.1 hn
      rw [firstRepeated?, if_neg (hs iri List.mem_cons_self)]
      apply ih hn
      intro other ho hm
      cases List.mem_append.1 hm with
      | inl hm => exact hs other (List.mem_cons_of_mem _ ho) hm
      | inr hm => exact hnew (List.mem_singleton.1 hm ▸ ho)

theorem readCardinalities_ok_iff {c : ClassDefinition} :
    (∃ cards, readCardinalities c = .ok cards) ↔
      ∀ e ∈ c.cardinalities.entries, e.2 ∈ ["1", "0-1", "0-n", "1-n"] := by
  have reads : ∀ e : Iri × String,
      (∃ r, readCardinality c.iri e = .ok r) ↔ e.2 ∈ ["1", "0-1", "0-n", "1-n"] := by
    intro e
    rw [← Cardinality.exists_parse_iff]
    cases hp : Cardinality.parse? e.2 <;> simp [readCardinality, hp]
  constructor
  · rintro ⟨cards, h⟩ e he
    obtain ⟨entries, hentries, _⟩ := map_eq_ok.1 h
    obtain ⟨r, _, hr⟩ := exists_of_mem_left (forall₂_of_mapM_ok hentries) he
    exact (reads e).1 ⟨r, hr⟩
  · intro h
    obtain ⟨entries, hentries⟩ := exists_mapM_ok fun e he => (reads e).2 (h e he)
    exact ⟨⟨entries⟩, map_eq_ok.2 ⟨entries, hentries, rfl⟩⟩

theorem readClasses_ok_iff {cs : List ClassDefinition} {seen : List Iri} :
    (∃ cards, readClasses seen cs = .ok cards) ↔
      (∀ c ∈ cs, ∀ e ∈ c.cardinalities.entries, e.2 ∈ ["1", "0-1", "0-n", "1-n"]) ∧
        (cs.map (·.iri)).Nodup ∧ ∀ c ∈ cs, c.iri ∉ seen := by
  constructor
  · rintro ⟨cards, h⟩
    have honce := readClasses_ok h
    refine ⟨?_, honce.1, honce.2.1⟩
    clear honce
    induction cs generalizing seen cards with
    | nil => intro c hc; cases hc
    | cons c cs ih =>
      obtain ⟨own, hown, h⟩ := bind_eq_ok.1 h
      split at h
      · cases h
      · obtain ⟨rest, hrest, _⟩ := bind_eq_ok.1 h
        intro d hd
        cases hd with
        | head => exact readCardinalities_ok_iff.1 ⟨own, hown⟩
        | tail _ hd => exact ih rest hrest d hd
  · rintro ⟨hcards, hn, hs⟩
    induction cs generalizing seen with
    | nil => exact ⟨[], rfl⟩
    | cons c cs ih =>
      obtain ⟨hnew, hn⟩ := List.nodup_cons.1 hn
      obtain ⟨own, hown⟩ := readCardinalities_ok_iff.2 (hcards c List.mem_cons_self)
      have hrest : ∃ rest, readClasses (seen ++ [c.iri]) cs = .ok rest := by
        apply ih (fun d hd => hcards d (List.mem_cons_of_mem _ hd)) hn
        intro d hd hm
        cases List.mem_append.1 hm with
        | inl hm => exact hs d (List.mem_cons_of_mem _ hd) hm
        | inr hm => exact hnew (List.mem_map.2 ⟨d, hd, List.mem_singleton.1 hm⟩)
      obtain ⟨rest, hrest⟩ := hrest
      refine ⟨own :: rest, ?_⟩
      rw [readClasses, hown]
      simp only [bind, Except.bind, if_neg (hs c List.mem_cons_self), hrest]
      rfl

/-- The checks before the closures, with the cardinalities that they read. -/
def check (defs : Definitions) : Except OntologyError (List (OrderedMap Iri Cardinality)) := do
  let cardinalities ← readClasses [] defs.classes
  reject .duplicate (firstRepeated? [] (defs.properties.map (·.iri)))
  reject (fun (c, s) => .unknownSuperclass c s) defs.classHierarchy.orphan?
  reject (fun (p, s) => .unknownSuperproperty p s) defs.propertyHierarchy.orphan?
  return cardinalities

/-- The ontology of checked definitions with their cardinalities. -/
def close (defs : Definitions) (cardinalities : List (OrderedMap Iri Cardinality)) :
    Except OntologyError Ontology := do
  let aboveClasses ← defs.classHierarchy.closure.mapError .cycle
  let aboveProperties ← defs.propertyHierarchy.closure.mapError .cycle
  return {
    classes := List.zipWith (classInfo aboveClasses) defs.classes cardinalities
    properties := defs.properties.map (propertyInfo aboveProperties) }

theorem ofDefinitions_eq (defs : Definitions) : ofDefinitions defs = check defs >>= close defs := by
  simp only [ofDefinitions, check, close, bind_assoc, pure_bind]
  rfl

theorem check_ok_iff {defs : Definitions} : (∃ cards, check defs = .ok cards) ↔ defs.Checked := by
  constructor
  · rintro ⟨cards, h⟩
    obtain ⟨own, hown, h⟩ := bind_eq_ok.1 h
    obtain ⟨_, hrepeated, h⟩ := bind_eq_ok.1 h
    obtain ⟨_, hclasses, h⟩ := bind_eq_ok.1 h
    obtain ⟨_, hproperties, _⟩ := bind_eq_ok.1 h
    obtain ⟨hcards, honce, _⟩ := readClasses_ok_iff.1 ⟨own, hown⟩
    have hsuper := Hierarchy.orphan?_eq_none_iff.1 (reject_ok hclasses)
    have hsuperproperty := Hierarchy.orphan?_eq_none_iff.1 (reject_ok hproperties)
    rw [Definitions.names_classHierarchy] at hsuper
    rw [Definitions.names_propertyHierarchy] at hsuperproperty
    constructor
    · exact hcards
    · exact honce
    · exact (firstRepeated?_eq_none_iff.1 (reject_ok hrepeated)).1
    · intro c hc
      exact hsuper (c.iri, c.superclasses) (List.mem_map.2 ⟨c, hc, rfl⟩)
    · intro p hp
      exact hsuperproperty (p.iri, p.superproperties) (List.mem_map.2 ⟨p, hp, rfl⟩)
  · intro hc
    obtain ⟨cards, hcards⟩ := readClasses_ok_iff.2
      ⟨hc.cardinalities, hc.classesOnce, fun _ _ => List.not_mem_nil⟩
    have hrepeated : firstRepeated? [] (defs.properties.map (·.iri)) = none :=
      firstRepeated?_eq_none_iff.2 ⟨hc.propertiesOnce, fun _ _ => List.not_mem_nil⟩
    exact ⟨cards, by rw [check, hcards, hrepeated, hc.classes_orphan, hc.properties_orphan]; rfl⟩

theorem readCardinalities_error {c : ClassDefinition} {e : OntologyError}
    (h : readCardinalities c = .error e) :
      ∃ property value, e = .badCardinality c.iri property value := by
  unfold readCardinalities at h
  cases hm : c.cardinalities.entries.mapM (readCardinality c.iri) with
  | ok _ => simp [hm, Except.map] at h
  | error e' =>
    simp only [hm, Except.map, Except.error.injEq] at h
    subst h
    obtain ⟨_, ⟨property, value⟩, _, _, _, hentry⟩ := mapM_eq_error.1 hm
    cases hp : Cardinality.parse? value with
    | some c => simp [readCardinality, hp] at hentry
    | none =>
      simp only [readCardinality, hp, Except.error.injEq] at hentry
      exact ⟨property, value, hentry.symm⟩

theorem readClasses_error {cs : List ClassDefinition} {seen : List Iri} {e : OntologyError}
    (h : readClasses seen cs = .error e) (iri : Iri) : e ≠ .cycle iri := by
  induction cs generalizing seen with
  | nil => cases h
  | cons c cs ih =>
    cases bind_eq_error.1 h with
    | inl hcards =>
      obtain ⟨_, _, rfl⟩ := readCardinalities_error hcards
      simp
    | inr h =>
      obtain ⟨_, _, h⟩ := h
      split at h
      · cases h
        simp
      · exact ih (error_of_bind h fun _ => rfl)

theorem reject_error {α : Type} {blame : α → OntologyError} {a : Option α} {e : OntologyError}
    (h : reject blame a = .error e) : ∃ x, e = blame x := by
  cases a with
  | none => cases h
  | some x =>
    cases h
    exact ⟨x, rfl⟩

/-- The checks before the closures tell nothing of cycles. -/
theorem check_error {defs : Definitions} {e : OntologyError} (h : check defs = .error e)
    (iri : Iri) : e ≠ .cycle iri := by
  rintro rfl
  cases bind_eq_error.1 h with
  | inl hcards => exact readClasses_error hcards iri rfl
  | inr h =>
    obtain ⟨_, _, h⟩ := h
    cases bind_eq_error.1 h with
    | inl hrepeated => simpa using reject_error hrepeated
    | inr h =>
      obtain ⟨_, _, h⟩ := h
      cases bind_eq_error.1 h with
      | inl hclasses => simpa using reject_error hclasses
      | inr h =>
        obtain ⟨_, _, h⟩ := h
        simpa using reject_error (error_of_bind h fun _ => rfl)

section
variable {defs : Definitions} (hc : defs.classHierarchy.Rooted) (hp : defs.propertyHierarchy.Rooted)
  (cards : List (OrderedMap Iri Cardinality))
include hc hp

theorem close_ok_iff : (∃ o, close defs cards = .ok o) ↔
    defs.classHierarchy.Acyclic ∧ defs.propertyHierarchy.Acyclic := by
  rw [← Hierarchy.closure_ok_iff hc, ← Hierarchy.closure_ok_iff hp]
  constructor
  · rintro ⟨o, h⟩
    obtain ⟨classes, hclasses, h⟩ := bind_eq_ok.1 h
    obtain ⟨properties, hproperties, _⟩ := bind_eq_ok.1 h
    exact ⟨⟨classes, mapError_eq_ok.1 hclasses⟩, ⟨properties, mapError_eq_ok.1 hproperties⟩⟩
  · rintro ⟨⟨classes, hclasses⟩, ⟨properties, hproperties⟩⟩
    exact ⟨_, by rw [close, hclasses, hproperties]; rfl⟩

theorem close_error_iff {e : OntologyError} : close defs cards = .error e ↔
    ∃ iri, e = .cycle iri ∧ (defs.classHierarchy.FirstOnCycle iri ∨
      defs.classHierarchy.Acyclic ∧ defs.propertyHierarchy.FirstOnCycle iri) := by
  constructor
  · intro h
    cases bind_eq_error.1 h with
    | inl hclasses =>
      obtain ⟨iri, hiri, rfl⟩ := mapError_eq_error.1 hclasses
      exact ⟨iri, rfl, .inl ((Hierarchy.closure_error_iff hc).1 hiri)⟩
    | inr h =>
      obtain ⟨classes, hclasses, h⟩ := h
      have hacyclic := (Hierarchy.closure_ok_iff hc).1 ⟨classes, mapError_eq_ok.1 hclasses⟩
      obtain ⟨iri, hiri, rfl⟩ := mapError_eq_error.1 (error_of_bind h fun _ => rfl)
      exact ⟨iri, rfl, .inr ⟨hacyclic, (Hierarchy.closure_error_iff hp).1 hiri⟩⟩
  · rintro ⟨iri, rfl, hfirst⟩
    apply bind_eq_error.2
    cases hfirst with
    | inl hfirst =>
      left
      exact mapError_eq_error.2 ⟨iri, (Hierarchy.closure_error_iff hc).2 hfirst, rfl⟩
    | inr hfirst =>
      obtain ⟨hacyclic, hfirst⟩ := hfirst
      obtain ⟨classes, hclasses⟩ := (Hierarchy.closure_ok_iff hc).2 hacyclic
      right
      refine ⟨classes, mapError_eq_ok.2 hclasses, bind_eq_error.2 (.inl ?_)⟩
      exact mapError_eq_error.2 ⟨iri, (Hierarchy.closure_error_iff hp).2 hfirst, rfl⟩

end

theorem ofDefinitions_ok_iff {defs : Definitions} :
    (∃ o, ofDefinitions defs = .ok o) ↔ defs.WellFormed := by
  rw [ofDefinitions_eq]
  constructor
  · rintro ⟨o, h⟩
    obtain ⟨cards, hcards, h⟩ := bind_eq_ok.1 h
    have hc := check_ok_iff.1 ⟨cards, hcards⟩
    obtain ⟨hclasses, hproperties⟩ :=
      (close_ok_iff hc.classes_rooted hc.properties_rooted cards).1 ⟨o, h⟩
    exact ⟨hc, hclasses, hproperties⟩
  · intro hw
    have hc := hw.toChecked
    obtain ⟨cards, hcards⟩ := check_ok_iff.2 hc
    obtain ⟨o, ho⟩ := (close_ok_iff hc.classes_rooted hc.properties_rooted cards).2
      ⟨hw.classesAcyclic, hw.propertiesAcyclic⟩
    exact ⟨o, bind_eq_ok.2 ⟨cards, hcards, ho⟩⟩

theorem ofDefinitions_cycle_iff {defs : Definitions} {iri : Iri} :
    ofDefinitions defs = .error (.cycle iri) ↔
      defs.Checked ∧ (defs.classHierarchy.FirstOnCycle iri ∨
        defs.classHierarchy.Acyclic ∧ defs.propertyHierarchy.FirstOnCycle iri) := by
  rw [ofDefinitions_eq]
  constructor
  · intro h
    cases bind_eq_error.1 h with
    | inl hcheck => exact absurd rfl (check_error hcheck iri)
    | inr h =>
      obtain ⟨cards, hcards, h⟩ := h
      have hc := check_ok_iff.1 ⟨cards, hcards⟩
      obtain ⟨_, heq, hfirst⟩ := (close_error_iff hc.classes_rooted hc.properties_rooted cards).1 h
      cases heq
      exact ⟨hc, hfirst⟩
  · rintro ⟨hc, hfirst⟩
    obtain ⟨cards, hcards⟩ := check_ok_iff.2 hc
    have hclose :=
      (close_error_iff hc.classes_rooted hc.properties_rooted cards).2 ⟨iri, rfl, hfirst⟩
    exact bind_eq_error.2 (.inr ⟨cards, hcards, hclose⟩)

end Ontology

/-! ## What becomes of definitions -/

/-- The relations of a hierarchy are found without help of the bound on the search, and are entered
into the tables without a miss. -/
structure Hierarchy.Completes (h : Hierarchy) : Prop where
  ends : ∀ iri steps, h.length < steps → h.climb iri steps (h.parents iri) [] = h.ancestors? iri
  above : ∀ table, h.closure = .ok table →
    enterAbove? table (tabled h.names fun _ => []) = some table
  below : ∀ table, h.closure = .ok table →
    enterBelow? table (tabled h.names fun _ => []) = some (tabled h.names table.below)

theorem Hierarchy.completes {h : Hierarchy} (hn : h.names.Nodup) (hr : h.Rooted) : h.Completes where
  ends iri _ hsteps := climb_of_lt hr iri hsteps
  above _ hc := enterAbove?_eq hc hn
  below _ hc := enterBelow?_eq hc hr

/-- **Exactly the well-formed definitions make an ontology.** A cycle is told only of definitions
that pass all other checks, and then it is that of the first class on one, or else of the first
property. The search for what is above ends by itself, and every entry of the tables is there when
it is looked up. -/
theorem ontology_build_exact (defs : Definitions) :
    let all := Definitions.skeleton ++ defs
    ((∃ o, Ontology.build defs = .ok o) ↔ all.WellFormed) ∧
    (∀ iri, Ontology.build defs = .error (.cycle iri) ↔
      all.Checked ∧ (all.classHierarchy.FirstOnCycle iri ∨
        all.classHierarchy.Acyclic ∧ all.propertyHierarchy.FirstOnCycle iri)) ∧
    (all.Checked → all.classHierarchy.Completes ∧ all.propertyHierarchy.Completes) := by
  intro all
  refine ⟨Ontology.ofDefinitions_ok_iff, fun iri => Ontology.ofDefinitions_cycle_iff, ?_⟩
  intro hc
  constructor
  · apply Hierarchy.completes _ hc.classes_rooted
    rw [Definitions.names_classHierarchy]
    exact hc.classesOnce
  · apply Hierarchy.completes _ hc.properties_rooted
    rw [Definitions.names_propertyHierarchy]
    exact hc.propertiesOnce

/-- A class that leads to a cycle is not blamed for it, and a cycle of classes hides one of
properties. -/
example : Ontology.build
    { classes := [⟨"villa", ["house"], .empty⟩, ⟨"house", ["dwelling"], .empty⟩,
        ⟨"dwelling", ["house", Base.resource], .empty⟩]
      properties := [⟨"hasName", ["hasName"], none, none⟩] } = .error (.cycle "house") := by
  decide +kernel

end OntoQuery
