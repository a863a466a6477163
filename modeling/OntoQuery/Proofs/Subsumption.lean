import Mathlib.Data.List.Perm.Subperm
import OntoQuery.Ontology.Lookup
import OntoQuery.Proofs.Steps

/-!
# Subsumption

What the tables of a built ontology hold:

* `Hierarchy.ancestors_searched`: the search upwards finds exactly the IRIs at the end of a chain of
  direct parents, within the bound that it is given;
* `Hierarchy.ancestors?_eq_search`: going up level by level gives what a queue of IRIs gives;
* `mem_superclasses_iff`, `mem_superproperties_iff`: so the tables of what is above are the
  transitive closure of what the definitions say;
* `mem_subclasses_iff`, `mem_subproperties_iff`: the tables of what is below are their inverse.
-/

namespace OntoQuery

namespace Hierarchy

/-- Everything that something extends has an entry. -/
def Rooted (h : Hierarchy) : Prop :=
  ∀ iri, ∀ above ∈ h.parents iri, above ∈ h.names

theorem Chain.trans {h : Hierarchy} {a b c : Iri} {m n : Nat} (hab : h.Chain a m b)
    (hbc : h.Chain b n c) : h.Chain a (m + n) c := by
  induction hbc with
  | parent hp => exact .step hab hp
  | step _ hp ih => exact .step ih hp

theorem Rooted.chain_ends {h : Hierarchy} (hr : h.Rooted) {start iri : Iri} {n : Nat}
    (hc : h.Chain start n iri) : iri ∈ h.names := by
  cases hc with
  | parent hp => exact hr _ _ hp
  | step _ hp => exact hr _ _ hp

theorem parents_of_mem {h : Hierarchy} (hn : h.names.Nodup) {iri : Iri} {direct : List Iri}
    (hm : (iri, direct) ∈ h) : h.parents iri = direct := by
  induction h with
  | nil => cases hm
  | cons e es ih =>
    obtain ⟨name, list⟩ := e
    obtain ⟨hname, hes⟩ := List.nodup_cons.1 hn
    cases hm with
    | head => simp [parents]
    | tail _ hm =>
      have hne : iri ≠ name := by
        rintro rfl
        exact hname (List.mem_map.2 ⟨_, hm, rfl⟩)
      have := ih hes hm
      simpa [parents, List.lookup_cons, beq_eq_false_iff_ne.2 hne] using this

theorem rooted_of_orphan {h : Hierarchy} (ho : h.orphan? = none) : h.Rooted := by
  intro iri above ha
  obtain ⟨direct, hm, ha⟩ := mem_of_mem_parents ha
  have hfind := List.findSome?_eq_none_iff.1 ho _ hm
  simp only [Option.map_eq_none_iff, List.find?_eq_none] at hfind
  have := hfind above ha
  simp only [Bool.not_eq_true', Bool.not_eq_false, List.any_eq_true, beq_iff_eq] at this
  obtain ⟨e, he, rfl⟩ := this
  exact List.mem_map.2 ⟨e, he, rfl⟩

/-! ## The search upwards -/

theorem mem_fresh {seen level : List Iri} {iri : Iri} :
    iri ∈ fresh seen level ↔ iri ∈ level ∧ iri ∉ seen := by
  simp [fresh, List.mem_eraseDups]

/-- What holds when the search from `start` comes to a level. -/
structure Searched (h : Hierarchy) (start : Iri) (level seen : List Iri) : Prop where
  reached : ∀ iri, iri ∈ seen ∨ iri ∈ level → ∃ n, h.Chain start n iri
  first : ∀ iri ∈ h.parents start, iri ∈ seen ∨ iri ∈ level
  closed : ∀ iri ∈ seen, ∀ above ∈ h.parents iri, above ∈ seen ∨ above ∈ level
  nodup : seen.Nodup
  apart : start ∉ seen

theorem searched_parents (h : Hierarchy) (start : Iri) : h.Searched start (h.parents start) [] where
  reached iri hi := ⟨1, .parent (by simpa using hi)⟩
  first iri hi := .inr hi
  closed iri hi := by cases hi
  nodup := List.nodup_nil
  apart := List.not_mem_nil

/-- A level goes to what is seen, and the parents of what was new in it are the next one. -/
theorem Searched.next {h : Hierarchy} {start : Iri} {level seen : List Iri}
    (hs : h.Searched start level seen) (hl : start ∉ level) :
    h.Searched start ((fresh seen level).flatMap h.parents) (seen ++ fresh seen level) := by
  have old : ∀ iri, iri ∈ seen ∨ iri ∈ level → iri ∈ seen ++ fresh seen level := by
    intro iri hi
    by_cases hm : iri ∈ seen
    · exact List.mem_append_left _ hm
    · exact List.mem_append_right _ (mem_fresh.2 ⟨hi.resolve_left hm, hm⟩)
  have new : ∀ iri ∈ seen ++ fresh seen level, iri ∈ seen ∨ iri ∈ level := by
    intro iri hi
    exact (List.mem_append.1 hi).imp id fun hi => (mem_fresh.1 hi).1
  constructor
  · rintro iri (hi | hi)
    · exact hs.reached iri (new iri hi)
    · obtain ⟨below, hb, hi⟩ := List.mem_flatMap.1 hi
      obtain ⟨n, hc⟩ := hs.reached below (.inr (mem_fresh.1 hb).1)
      exact ⟨n + 1, .step hc hi⟩
  · intro iri hi
    exact .inl (old iri (hs.first iri hi))
  · intro iri hi above ha
    by_cases hm : iri ∈ seen
    · exact .inl (old above (hs.closed iri hm above ha))
    · have hf : iri ∈ fresh seen level := (List.mem_append.1 hi).resolve_left hm
      exact .inr (List.mem_flatMap.2 ⟨iri, hf, ha⟩)
  · rw [List.nodup_append]
    refine ⟨hs.nodup, nodup_eraseDups _, ?_⟩
    rintro iri hi _ hf rfl
    exact (mem_fresh.1 hf).2 hi
  · intro hm
    exact (new start hm).elim hs.apart hl

/-- A search with nothing left to look at has found all that is above. -/
theorem Searched.mem_iff {h : Hierarchy} {start : Iri} {seen : List Iri}
    (hs : h.Searched start [] seen) (iri : Iri) : iri ∈ seen ↔ ∃ n, h.Chain start n iri := by
  constructor
  · intro hi
    exact hs.reached iri (.inl hi)
  · rintro ⟨n, hc⟩
    induction hc with
    | parent hp => exact (hs.first _ hp).resolve_right List.not_mem_nil
    | step _ hp ih => exact (hs.closed _ ih _ hp).resolve_right List.not_mem_nil

theorem Searched.seen_le {h : Hierarchy} (hr : h.Rooted) {start : Iri} {level seen : List Iri}
    (hs : h.Searched start level seen) : seen.length ≤ h.length := by
  have hsub : seen ⊆ h.names := by
    intro iri hi
    obtain ⟨n, hc⟩ := hs.reached iri (.inl hi)
    exact hr.chain_ends hc
  have := (List.subperm_of_subset hs.nodup hsub).length_le
  simpa [names] using this

/-- A level with nothing new is the last one, so steps that are enough for a level and all above it
are enough for what comes after. -/
theorem enough_next {h : Hierarchy} {steps : Nat} {level seen : List Iri} (hl : level ≠ [])
    (hsteps : level = [] ∨ h.length < steps + 1 + seen.length) :
    (fresh seen level).flatMap h.parents = [] ∨
      h.length < steps + (seen ++ fresh seen level).length := by
  have hmore := hsteps.resolve_left hl
  cases hf : fresh seen level with
  | nil => exact .inl rfl
  | cons iri iris =>
    right
    simp only [List.length_append, List.length_cons]
    omega

section
variable {h : Hierarchy} {start : Iri} {P : List Iri → List Iri → Prop}
  (hnext : ∀ level seen, P level seen → start ∉ level →
    P ((fresh seen level).flatMap h.parents) (seen ++ fresh seen level))
include hnext

/-- What each level keeps holds at the end with nothing left to look at, if the search may take more
steps than there are IRIs that it has not seen. -/
theorem climb_some (hle : ∀ level seen, P level seen → seen.length ≤ h.length) {steps : Nat}
    {level seen found : List Iri} (hP : P level seen)
    (hsteps : level = [] ∨ h.length < steps + seen.length)
    (hc : h.climb start steps level seen = some found) : P [] found := by
  induction steps generalizing level seen with
  | zero =>
    have hshort := hle level seen hP
    have hl : level = [] := hsteps.resolve_right (by omega)
    simp only [climb, Option.some.injEq] at hc
    subst hl hc
    exact hP
  | succ steps ih =>
    simp only [climb] at hc
    by_cases hl : level = []
    · simp only [hl, if_true, Option.some.injEq] at hc
      subst hl hc
      exact hP
    · by_cases hstart : start ∈ level
      · simp [hl, hstart] at hc
      · simp only [hl, hstart, if_false] at hc
        exact ih (hnext level seen hP hstart) (enough_next hl hsteps) hc

/-- Steps that are enough give the answer of any more steps. -/
theorem climb_succ (hle : ∀ level seen, P level seen → seen.length ≤ h.length) {steps : Nat}
    {level seen : List Iri} (hP : P level seen)
    (hsteps : level = [] ∨ h.length < steps + seen.length) :
    h.climb start (steps + 1) level seen = h.climb start steps level seen := by
  induction steps generalizing level seen with
  | zero =>
    have hshort := hle level seen hP
    have hl : level = [] := hsteps.resolve_right (by omega)
    simp [climb, hl]
  | succ steps ih =>
    have unfolded : ∀ k, h.climb start (k + 1) level seen =
        if level = [] then some seen
        else if start ∈ level then none
        else h.climb start k ((fresh seen level).flatMap h.parents) (seen ++ fresh seen level) :=
      fun _ => rfl
    rw [unfolded, unfolded]
    by_cases hl : level = []
    · simp only [hl, if_true]
    · by_cases hstart : start ∈ level
      · simp only [hl, hstart, if_true, if_false]
      · simp only [hl, hstart, if_false]
        exact ih (hnext level seen hP hstart) (enough_next hl hsteps)

/-- A search that fails has come to a level with its start in it. -/
theorem climb_none {steps : Nat} {level seen : List Iri} (hP : P level seen)
    (hc : h.climb start steps level seen = none) : ∃ level seen, P level seen ∧ start ∈ level := by
  induction steps generalizing level seen with
  | zero => simp [climb] at hc
  | succ steps ih =>
    simp only [climb] at hc
    by_cases hl : level = []
    · simp [hl] at hc
    · by_cases hstart : start ∈ level
      · exact ⟨level, seen, hP, hstart⟩
      · simp only [hl, hstart, if_false] at hc
        exact ih (hnext level seen hP hstart) hc

end

/-- **The search upwards is exact.** In a hierarchy where everything that is extended has an entry,
it finds what chains of direct parents lead to, each IRI once, and the IRI it starts from is not
among them. -/
theorem ancestors_searched {h : Hierarchy} (hr : h.Rooted) {iri : Iri} {found : List Iri}
    (hf : h.ancestors? iri = some found) : h.Searched iri [] found :=
  climb_some (fun _ _ hs => hs.next) (fun _ _ hs => hs.seen_le hr) (h.searched_parents iri)
    (.inr (by simp)) hf

/-! ## The search with a queue -/

theorem fresh_cons_of_mem {seen : List Iri} {iri : Iri} (hi : iri ∈ seen) (level : List Iri) :
    fresh seen (iri :: level) = fresh seen level := by
  simp [fresh, hi]

theorem fresh_cons_of_not_mem {seen : List Iri} {iri : Iri} (hi : iri ∉ seen) (level : List Iri) :
    fresh seen (iri :: level) = iri :: fresh (seen ++ [iri]) level := by
  have hboth : (level.filter (· ∉ seen)).filter (fun other => !other == iri) =
      level.filter (· ∉ seen ++ [iri]) := by
    rw [List.filter_filter]
    congr 1
    funext other
    by_cases hother : other = iri <;> simp [hother]
  rw [fresh, List.filter_cons_of_pos (by simpa using hi), List.eraseDups_cons, hboth, fresh]

/-- A level at the front of the queue is taken as a whole: what is new in it is seen, and its
parents stand at the end. -/
theorem search_level (h : Hierarchy) (start : Iri) (level queue seen : List Iri) :
    h.search start (level ++ queue) seen =
      if start ∈ level then none
      else h.search start (queue ++ (fresh seen level).flatMap h.parents)
        (seen ++ fresh seen level) := by
  induction level generalizing queue seen with
  | nil => simp [fresh]
  | cons iri level ih =>
    rw [List.cons_append, search]
    by_cases hstart : iri = start
    · simp [hstart]
    · have hmem : start ∈ iri :: level ↔ start ∈ level := by simp [Ne.symm hstart]
      simp only [hstart, if_false, hmem]
      by_cases hseen : iri ∈ seen
      · simp only [hseen, if_true, fresh_cons_of_mem hseen]
        exact ih queue seen
      · simp only [hseen, if_false, fresh_cons_of_not_mem hseen, List.flatMap_cons]
        rw [List.append_assoc, ih]
        simp only [List.append_assoc, List.singleton_append]

/-- More steps than there are entries not seen are enough for a level and all above it. -/
theorem climb_eq_search {h : Hierarchy} {start : Iri} {steps : Nat} {level seen : List Iri}
    (hsteps : level = [] ∨ h.names.countP (· ∉ seen) < steps) :
    h.climb start steps level seen = h.search start level seen := by
  induction steps generalizing level seen with
  | zero =>
    have hl : level = [] := hsteps.resolve_right (Nat.not_lt_zero _)
    rw [hl, climb, search]
  | succ steps ih =>
    by_cases hl : level = []
    · rw [hl, climb, search, if_pos rfl]
    · have hnext : (fresh seen level).flatMap h.parents = [] ∨
          h.names.countP (· ∉ seen ++ fresh seen level) < steps := by
        by_cases hnew : ∃ iri ∈ fresh seen level, iri ∈ h.names
        · obtain ⟨iri, hiri, hname⟩ := hnew
          have hfewer := countP_unseen_lt hname (mem_fresh.1 hiri).2 hiri
          have hmore := hsteps.resolve_left hl
          exact .inr (by omega)
        · left
          rw [List.flatMap_eq_nil_iff]
          intro iri hiri
          exact parents_of_not_mem fun hname => hnew ⟨iri, hiri, hname⟩
      have hlevel := h.search_level start level [] seen
      rw [List.append_nil, List.nil_append] at hlevel
      rw [climb, if_neg hl, hlevel, ih hnext]

/-- **Level by level or one by one.** Taking IRIs from a queue one by one finds the same as going up
level by level, in the same order. -/
theorem ancestors?_eq_search (h : Hierarchy) (iri : Iri) :
    h.ancestors? iri = h.search iri (h.parents iri) [] := by
  refine climb_eq_search (.inr ?_)
  have hle : h.names.countP (· ∉ ([] : List Iri)) ≤ h.names.length := List.countP_le_length
  rw [names, List.length_map] at hle
  exact Nat.lt_succ_of_le hle

/-! ## The closure of a hierarchy -/

/-- The closure has the entries of the hierarchy, each with all that is above. -/
theorem closure_entries {h above : Hierarchy} (hc : h.closure = .ok above) :
    above.names = h.names ∧ ∀ e ∈ above, h.ancestors? e.1 = some e.2 := by
  have hall : List.Forall₂ (fun (a b : Iri × List Iri) => b.1 = a.1 ∧ h.ancestors? b.1 = some b.2)
      h above := by
    refine (forall₂_of_mapM_ok hc).imp ?_
    intro a b hb
    dsimp only at hb
    cases hf : h.ancestors? a.1 with
    | none => simp [hf] at hb
    | some found =>
      simp only [hf, Except.ok.injEq] at hb
      subst hb
      exact ⟨rfl, hf⟩
  have split : ∀ {as bs : Hierarchy}, List.Forall₂
      (fun (a b : Iri × List Iri) => b.1 = a.1 ∧ h.ancestors? b.1 = some b.2) as bs →
      bs.names = as.names ∧ ∀ e ∈ bs, h.ancestors? e.1 = some e.2 := by
    intro as bs hf
    induction hf with
    | nil => exact ⟨rfl, by intro e he; cases he⟩
    | cons hab _ ih =>
      refine ⟨by simp only [names, List.map_cons, hab.1]; exact congrArg _ ih.1, ?_⟩
      intro e he
      cases he with
      | head => exact hab.2
      | tail _ he => exact ih.2 e he
  exact split hall

theorem chain_starts {h : Hierarchy} {start iri : Iri} {n : Nat} (hc : h.Chain start n iri) :
    start ∈ h.names := by
  induction hc with
  | parent hp =>
    obtain ⟨direct, hm, _⟩ := mem_of_mem_parents hp
    exact List.mem_map.2 ⟨_, hm, rfl⟩
  | step _ _ ih => exact ih

/-- A table that passed for the closure of a hierarchy lists for each IRI what chains lead to. -/
theorem mem_closure_parents {h table : Hierarchy} (hn : h.names.Nodup) (hr : h.Rooted)
    (hc : h.closure = .ok table) {iri above : Iri} :
    above ∈ table.parents iri ↔ ∃ n, h.Chain iri n above := by
  obtain ⟨hnames, hentries⟩ := closure_entries hc
  by_cases hi : iri ∈ h.names
  · rw [← hnames] at hi hn
    obtain ⟨⟨_, found⟩, he, rfl⟩ := List.mem_map.1 hi
    rw [parents_of_mem hn he]
    exact (ancestors_searched hr (hentries _ he)).mem_iff above
  · have hempty : table.parents iri = [] := parents_of_not_mem (hnames ▸ hi)
    simp only [hempty, List.not_mem_nil, false_iff, not_exists]
    intro n hchain
    exact hi (chain_starts hchain)

/-- Looking up who lists an IRI inverts looking up what is listed. -/
theorem mem_below_iff {table : Hierarchy} (hn : table.names.Nodup) {iri sub : Iri} :
    sub ∈ table.below iri ↔ iri ∈ table.parents sub := by
  constructor
  · intro hb
    obtain ⟨⟨_, list⟩, he, rfl⟩ := List.mem_map.1 hb
    obtain ⟨he, hi⟩ := List.mem_filter.1 he
    rw [parents_of_mem hn he]
    exact of_decide_eq_true hi
  · intro hp
    obtain ⟨list, he, hi⟩ := mem_of_mem_parents hp
    exact List.mem_map.2 ⟨_, List.mem_filter.2 ⟨he, decide_eq_true hi⟩, rfl⟩

end Hierarchy

/-! ## The tables of an ontology -/

namespace Definitions

/-- Each class with the ones that it extends. -/
def classHierarchy (defs : Definitions) : Hierarchy :=
  defs.classes.map fun c => (c.iri, c.superclasses)

/-- Each property with the ones that it extends. -/
def propertyHierarchy (defs : Definitions) : Hierarchy :=
  defs.properties.map fun p => (p.iri, p.superproperties)

theorem names_classHierarchy (defs : Definitions) :
    defs.classHierarchy.names = defs.classes.map (·.iri) := by
  simp [classHierarchy, Hierarchy.names]

theorem names_propertyHierarchy (defs : Definitions) :
    defs.propertyHierarchy.names = defs.properties.map (·.iri) := by
  simp [propertyHierarchy, Hierarchy.names]

end Definitions

namespace Ontology

theorem nodup_of_firstRepeated {iris : List Iri} : ∀ {seen : List Iri},
    firstRepeated? seen iris = none → iris.Nodup ∧ ∀ iri ∈ iris, iri ∉ seen := by
  induction iris with
  | nil =>
    intro seen _
    exact ⟨List.nodup_nil, by intro iri hi; cases hi⟩
  | cons iri iris ih =>
    intro seen h
    simp only [firstRepeated?] at h
    split at h
    · cases h
    · rename_i hi
      obtain ⟨hn, hs⟩ := ih h
      refine ⟨List.nodup_cons.2 ⟨fun hm => hs iri hm (by simp), hn⟩, ?_⟩
      intro other ho
      cases ho with
      | head => exact hi
      | tail _ ho => exact fun hm => hs other ho (List.mem_append_left _ hm)

theorem readClasses_ok {cs : List ClassDefinition} :
    ∀ {seen : List Iri} {cards : List (OrderedMap Iri Cardinality)},
      readClasses seen cs = .ok cards →
      (cs.map (·.iri)).Nodup ∧ (∀ c ∈ cs, c.iri ∉ seen) ∧ cards.length = cs.length := by
  induction cs with
  | nil =>
    intro seen cards h
    simp only [readClasses, Except.ok.injEq] at h
    subst h
    refine ⟨List.nodup_nil, ?_, rfl⟩
    intro c hc
    cases hc
  | cons c cs ih =>
    intro seen cards h
    simp only [readClasses] at h
    obtain ⟨own, _, h⟩ := bind_eq_ok.1 h
    split at h
    · cases h
    · rename_i hc
      obtain ⟨rest, hrest, h⟩ := bind_eq_ok.1 h
      rw [pure_eq_ok] at h
      subst h
      obtain ⟨hn, hs, hlen⟩ := ih hrest
      refine ⟨?_, ?_, by simp [hlen]⟩
      · rw [List.map_cons, List.nodup_cons]
        refine ⟨?_, hn⟩
        intro hm
        obtain ⟨d, hd, hdc⟩ := List.mem_map.1 hm
        exact hs d hd (by simp [hdc])
      · intro d hd
        cases hd with
        | head => exact hc
        | tail _ hd => exact fun hm => hs d hd (List.mem_append_left _ hm)

theorem reject_ok {α : Type} {blame : α → OntologyError} {a : Option α} {u : Unit}
    (h : reject blame a = .ok u) : a = none := by
  cases a with
  | none => rfl
  | some a => cases h

/-- What definitions have passed that make an ontology, and what it is put together from. -/
structure Parts (defs : Definitions) (o : Ontology) (cards : List (OrderedMap Iri Cardinality))
    (classes properties : Hierarchy) : Prop where
  classesRead : readClasses [] defs.classes = .ok cards
  propertiesOnce : firstRepeated? [] (defs.properties.map (·.iri)) = none
  classesDefined : defs.classHierarchy.orphan? = none
  propertiesDefined : defs.propertyHierarchy.orphan? = none
  classesClosed : defs.classHierarchy.closure = .ok classes
  propertiesClosed : defs.propertyHierarchy.closure = .ok properties
  made : o =
    { classes := List.zipWith (classInfo classes) defs.classes cards
      properties := defs.properties.map (propertyInfo properties) }

theorem parts_of_ofDefinitions {defs : Definitions} {o : Ontology}
    (h : ofDefinitions defs = .ok o) :
    ∃ cards classes properties, Parts defs o cards classes properties := by
  simp only [ofDefinitions] at h
  obtain ⟨cards, hcards, h⟩ := bind_eq_ok.1 h
  obtain ⟨_, hrepeated, h⟩ := bind_eq_ok.1 h
  obtain ⟨_, hclasses, h⟩ := bind_eq_ok.1 h
  obtain ⟨_, hproperties, h⟩ := bind_eq_ok.1 h
  obtain ⟨classes, hc, h⟩ := bind_eq_ok.1 h
  obtain ⟨properties, hp, h⟩ := bind_eq_ok.1 h
  rw [pure_eq_ok] at h
  exact ⟨cards, classes, properties, hcards, reject_ok hrepeated, reject_ok hclasses,
    reject_ok hproperties, mapError_eq_ok.1 hc, mapError_eq_ok.1 hp, h.symm⟩

/-- What definitions have passed that make an ontology, and the tables that it takes its relations
from. -/
structure Built (defs : Definitions) (o : Ontology) (classes properties : Hierarchy) : Prop where
  classesOnce : defs.classHierarchy.names.Nodup
  propertiesOnce : defs.propertyHierarchy.names.Nodup
  classesRooted : defs.classHierarchy.Rooted
  propertiesRooted : defs.propertyHierarchy.Rooted
  classesClosed : defs.classHierarchy.closure = .ok classes
  propertiesClosed : defs.propertyHierarchy.closure = .ok properties
  classNames : o.classes.map (·.iri) = defs.classes.map (·.iri)
  propertyNames : o.properties.map (·.iri) = defs.properties.map (·.iri)
  classTables : ∀ c ∈ o.classes,
    c.superclasses = classes.parents c.iri ∧ c.subclasses = classes.below c.iri
  propertyTables : ∀ p ∈ o.properties,
    p.superproperties = properties.parents p.iri ∧ p.subproperties = properties.below p.iri

theorem built_of_ofDefinitions {defs : Definitions} {o : Ontology}
    (h : ofDefinitions defs = .ok o) : ∃ classes properties, Built defs o classes properties := by
  obtain ⟨cards, classes, properties, parts⟩ := parts_of_ofDefinitions h
  obtain rfl := parts.made
  obtain ⟨honce, _, hlen⟩ := readClasses_ok parts.classesRead
  refine ⟨classes, properties, ?_⟩
  constructor
  · rw [Definitions.names_classHierarchy]
    exact honce
  · rw [Definitions.names_propertyHierarchy]
    exact (nodup_of_firstRepeated parts.propertiesOnce).1
  · exact Hierarchy.rooted_of_orphan parts.classesDefined
  · exact Hierarchy.rooted_of_orphan parts.propertiesDefined
  · exact parts.classesClosed
  · exact parts.propertiesClosed
  · have hnames : ∀ (ds : List ClassDefinition) (cs : List (OrderedMap Iri Cardinality)),
        cs.length = ds.length →
        (List.zipWith (classInfo classes) ds cs).map (·.iri) = ds.map (·.iri) := by
      intro ds
      induction ds with
      | nil => intro cs _; rfl
      | cons d ds ih =>
        intro cs hl
        cases cs with
        | nil => cases hl
        | cons c cs =>
          have hl' : cs.length = ds.length := by simpa using hl
          simp only [List.zipWith_cons_cons, List.map_cons, ih cs hl']
          rfl
    exact hnames _ _ hlen
  · simp [propertyInfo, Function.comp_def]
  · intro c hm
    obtain ⟨i, hi, rfl⟩ := List.mem_iff_getElem.1 hm
    simp [List.getElem_zipWith, classInfo]
  · intro p hm
    obtain ⟨d, _, rfl⟩ := List.mem_map.1 hm
    exact ⟨rfl, rfl⟩

/-- A look-up by name among members that have the lists of a table, where only names are missing
that the table has nothing for. -/
theorem getD_find_eq {α : Type} {as : List α} {name : α → Iri} {list : α → List Iri}
    {table : Iri → List Iri} (hin : ∀ a ∈ as, list a = table (name a))
    (hout : ∀ iri, iri ∉ as.map name → table iri = []) (iri : Iri) :
    ((as.find? (name · == iri)).map list).getD [] = table iri := by
  cases hf : as.find? (name · == iri) with
  | none =>
    refine (hout iri ?_).symm
    intro hm
    obtain ⟨a, ha, rfl⟩ := List.mem_map.1 hm
    have := List.find?_eq_none.1 hf a ha
    simp at this
  | some a =>
    have hi : name a = iri := by simpa using List.find?_some hf
    rw [← hi]
    exact hin a (List.mem_of_find?_eq_some hf)

theorem below_of_not_mem {h table : Hierarchy} (hn : h.names.Nodup) (hr : h.Rooted)
    (hc : h.closure = .ok table) {iri : Iri} (hi : iri ∉ h.names) : table.below iri = [] := by
  apply List.eq_nil_iff_forall_not_mem.2
  intro sub hs
  have hn' : table.names.Nodup := (Hierarchy.closure_entries hc).1 ▸ hn
  rw [Hierarchy.mem_below_iff hn', Hierarchy.mem_closure_parents hn hr hc] at hs
  obtain ⟨n, hchain⟩ := hs
  exact hi (hr.chain_ends hchain)

section
variable {defs : Definitions} {o : Ontology} {classes properties : Hierarchy}
  (hb : Built defs o classes properties)
include hb

theorem Built.superclasses_eq (iri : Iri) : o.superclasses iri = classes.parents iri := by
  have hget : o.superclasses iri = ((o.class? iri).map (·.superclasses)).getD [] := by
    unfold superclasses
    cases o.class? iri <;> rfl
  rw [hget]
  refine getD_find_eq (fun c hc => (hb.classTables c hc).1) ?_ iri
  intro other ho
  apply Hierarchy.parents_of_not_mem
  rwa [(Hierarchy.closure_entries hb.classesClosed).1, Definitions.names_classHierarchy,
    ← hb.classNames]

theorem Built.superproperties_eq (iri : Iri) : o.superproperties iri = properties.parents iri := by
  have hget : o.superproperties iri = ((o.property? iri).map (·.superproperties)).getD [] := by
    unfold superproperties
    cases o.property? iri <;> rfl
  rw [hget]
  refine getD_find_eq (fun p hp => (hb.propertyTables p hp).1) ?_ iri
  intro other ho
  apply Hierarchy.parents_of_not_mem
  rwa [(Hierarchy.closure_entries hb.propertiesClosed).1, Definitions.names_propertyHierarchy,
    ← hb.propertyNames]

theorem Built.subclasses_eq (iri : Iri) : o.subclasses iri = classes.below iri := by
  have hget : o.subclasses iri = ((o.class? iri).map (·.subclasses)).getD [] := by
    unfold subclasses
    cases o.class? iri <;> rfl
  rw [hget]
  refine getD_find_eq (fun c hc => (hb.classTables c hc).2) ?_ iri
  intro other ho
  apply below_of_not_mem hb.classesOnce hb.classesRooted hb.classesClosed
  rwa [Definitions.names_classHierarchy, ← hb.classNames]

theorem Built.subproperties_eq (iri : Iri) : o.subproperties iri = properties.below iri := by
  have hget : o.subproperties iri = ((o.property? iri).map (·.subproperties)).getD [] := by
    unfold subproperties
    cases o.property? iri <;> rfl
  rw [hget]
  refine getD_find_eq (fun p hp => (hb.propertyTables p hp).2) ?_ iri
  intro other ho
  apply below_of_not_mem hb.propertiesOnce hb.propertiesRooted hb.propertiesClosed
  rwa [Definitions.names_propertyHierarchy, ← hb.propertyNames]

end

section
variable {defs : Definitions} {o : Ontology} (h : ofDefinitions defs = .ok o)
include h

/-- **What is above a class is what its chains of superclasses lead to.** -/
theorem mem_superclasses_iff {iri above : Iri} :
    above ∈ o.superclasses iri ↔ ∃ n, defs.classHierarchy.Chain iri n above := by
  obtain ⟨classes, properties, hb⟩ := built_of_ofDefinitions h
  rw [hb.superclasses_eq]
  exact Hierarchy.mem_closure_parents hb.classesOnce hb.classesRooted hb.classesClosed

/-- **What is above a property is what its chains of superproperties lead to.** -/
theorem mem_superproperties_iff {iri above : Iri} :
    above ∈ o.superproperties iri ↔ ∃ n, defs.propertyHierarchy.Chain iri n above := by
  obtain ⟨classes, properties, hb⟩ := built_of_ofDefinitions h
  rw [hb.superproperties_eq]
  exact Hierarchy.mem_closure_parents hb.propertiesOnce hb.propertiesRooted hb.propertiesClosed

/-- The classes below a class are those that it is above. -/
theorem mem_subclasses_iff {iri sub : Iri} : sub ∈ o.subclasses iri ↔ iri ∈ o.superclasses sub := by
  obtain ⟨classes, properties, hb⟩ := built_of_ofDefinitions h
  rw [hb.subclasses_eq, hb.superclasses_eq]
  exact Hierarchy.mem_below_iff ((Hierarchy.closure_entries hb.classesClosed).1 ▸ hb.classesOnce)

/-- The properties below a property are those that it is above. -/
theorem mem_subproperties_iff {iri sub : Iri} :
    sub ∈ o.subproperties iri ↔ iri ∈ o.superproperties sub := by
  obtain ⟨classes, properties, hb⟩ := built_of_ofDefinitions h
  rw [hb.subproperties_eq, hb.superproperties_eq]
  exact Hierarchy.mem_below_iff
    ((Hierarchy.closure_entries hb.propertiesClosed).1 ▸ hb.propertiesOnce)

theorem property?_eq_none_iff {iri : Iri} :
    o.property? iri = none ↔ iri ∉ defs.properties.map (·.iri) := by
  obtain ⟨classes, properties, hb⟩ := built_of_ofDefinitions h
  rw [← hb.propertyNames]
  simp [property?]

/-- Whatever is above a property is itself defined. -/
theorem property_of_mem_superproperties {iri above : Iri} (ha : above ∈ o.superproperties iri) :
    (o.property? above).isSome = true := by
  obtain ⟨n, hchain⟩ := (mem_superproperties_iff h).1 ha
  obtain ⟨classes, properties, hb⟩ := built_of_ofDefinitions h
  have hdef : above ∈ defs.properties.map (·.iri) := by
    rw [← Definitions.names_propertyHierarchy]
    exact hb.propertiesRooted.chain_ends hchain
  rw [Option.isSome_iff_ne_none, ne_eq, property?_eq_none_iff h, not_not]
  exact hdef

end

/-- What a run over definitions shows to hold of an ontology. -/
theorem exists_built {defs : Definitions} {P : Ontology → Prop} [DecidablePred P]
    (h : ((build defs).toOption.map fun o => decide (P o)) = some true) :
    ∃ o, build defs = .ok o ∧ P o := by
  cases hbuild : build defs with
  | error fault =>
    rw [hbuild] at h
    cases h
  | ok o =>
    rw [hbuild] at h
    exact ⟨o, rfl, of_decide_eq_true (Option.some.inj h)⟩

/-- The skeleton alone makes an ontology. -/
theorem build_skeleton : ∃ o, build {} = .ok o := by
  have hrun : ((build {}).toOption.map fun _ => decide True) = some true := by decide +kernel
  obtain ⟨o, hbuild, _⟩ := exists_built hrun
  exact ⟨o, hbuild⟩

end Ontology

end OntoQuery
