import Mathlib.Data.Nat.Find
import OntoQuery.Proofs.Closure

/-!
# Inherited cardinalities

A class has the cardinalities that its definition declares, and inherits those of the classes above
it. They can be asked for one by one or all together, and the two answers are the same
(`Ontology.find?_cardinalities`). Both go through the class and everything above it, nearest first,
so the answer is the declaration of a class to which no chain of superclasses is shorter than to any
other one that declares the property (`nearest_cardinality_wins`).
-/

namespace OntoQuery

theorem Cardinality.text_of_parse? {value : String} {c : Cardinality} (h : parse? value = some c) :
    c.text = value := by
  unfold parse? at h
  split at h
  · cases h; rfl
  · cases h; rfl
  · cases h; rfl
  · cases h; rfl
  · cases h

/-! ## All cardinalities at once -/

namespace OrderedMap
variable {κ α : Type} [DecidableEq κ]

theorem find?_insertNew (m : OrderedMap κ α) (k k' : κ) (a : α) :
    (m.insertNew k a).find? k' = (m.find? k').or (if k' = k then some a else none) := by
  unfold insertNew
  split
  · rename_i hbound
    by_cases h : k' = k
    · subst h
      obtain ⟨b, hb⟩ := Option.isSome_iff_exists.1 hbound
      simp [hb]
    · simp [h]
  · by_cases h : k' = k
    · simp [find?, List.lookup_append, h]
    · have hne : (k' == k) = false := by simpa using h
      simp [find?, List.lookup_append, List.lookup_cons, h, hne]

/-- Of entries with one key, the first counts, unless the key is bound already. -/
theorem find?_foldl_insertNew (es : List (κ × α)) (m : OrderedMap κ α) (k : κ) :
    (es.foldl (fun m (k, a) => m.insertNew k a) m).find? k = (m.find? k).or (es.lookup k) := by
  induction es generalizing m with
  | nil => simp
  | cons e es ih =>
    obtain ⟨k', a⟩ := e
    rw [List.foldl_cons, ih, find?_insertNew, Option.or_assoc]
    by_cases h : k = k'
    · simp [h]
    · have hne : (k == k') = false := by simpa using h
      simp [h, List.lookup_cons, hne]

end OrderedMap

namespace Ontology

/-- **Each cardinality is the one in the list of all.** -/
theorem find?_cardinalities (o : Ontology) (class_ property : Iri) :
    (o.cardinalities class_).find? property = o.cardinality class_ property := by
  unfold cardinalities cardinality
  rw [OrderedMap.find?_foldl_insertNew, OrderedMap.find?_empty, Option.none_or]
  induction o.lineage class_ with
  | nil => rfl
  | cons c cs ih =>
    rw [List.flatMap_cons, List.lookup_append, ih, List.findSome?_cons]
    unfold OrderedMap.find?
    cases c.cardinalities.entries.lookup property <;> rfl

/-- The cardinality that the class itself declares for the property. -/
def own? (o : Ontology) (class_ property : Iri) : Option Cardinality :=
  (o.class? class_).bind (·.cardinalities.find? property)

/-- The cardinality is that of the first class that declares one, from the class itself upwards. -/
theorem cardinality_eq_findSome? (o : Ontology) (class_ property : Iri) :
    o.cardinality class_ property =
      (class_ :: o.superclasses class_).findSome? (o.own? · property) := by
  have hknown : ∀ iris : List Iri,
      (iris.filterMap o.class?).findSome? (·.cardinalities.find? property) =
        iris.findSome? (o.own? · property) := by
    intro iris
    induction iris with
    | nil => rfl
    | cons iri iris ih =>
      cases hc : o.class? iri with
      | none => simp [hc, own?, ih]
      | some c => simp [hc, own?, ih, List.findSome?_cons]
  unfold cardinality lineage superclasses
  cases hc : o.class? class_ with
  | none => simp [own?, hc]
  | some c => rw [List.findSome?_cons, List.findSome?_cons, hknown, own?, hc, Option.bind_some]

end Ontology

/-! ## What definitions declare -/

/-- The cardinality that the definition of the class has for the property, as it is written. -/
def Definitions.declared? (defs : Definitions) (class_ property : Iri) : Option String :=
  (defs.classes.find? (·.iri == class_)).bind (·.cardinalities.find? property)

namespace Ontology

theorem readCardinality_ok {class_ : Iri} {e : Iri × String} {r : Iri × Cardinality}
    (h : readCardinality class_ e = .ok r) : r.1 = e.1 ∧ r.2.text = e.2 := by
  obtain ⟨property, value⟩ := e
  cases hp : Cardinality.parse? value with
  | none => simp [readCardinality, hp] at h
  | some k =>
    simp only [readCardinality, hp, Except.ok.injEq] at h
    subst h
    exact ⟨rfl, Cardinality.text_of_parse? hp⟩

theorem find?_of_readCardinalities {c : ClassDefinition} {cards : OrderedMap Iri Cardinality}
    (h : readCardinalities c = .ok cards) (property : Iri) :
    (cards.find? property).map Cardinality.text = c.cardinalities.find? property := by
  obtain ⟨entries, hentries, rfl⟩ := map_eq_ok.1 h
  have lookups : ∀ {texts : List (Iri × String)} {read : List (Iri × Cardinality)},
      List.Forall₂ (fun e r => readCardinality c.iri e = .ok r) texts read →
      (read.lookup property).map Cardinality.text = texts.lookup property := by
    intro texts read hread
    induction hread with
    | nil => rfl
    | cons her _ ih =>
      obtain ⟨hname, htext⟩ := readCardinality_ok her
      rw [List.lookup_cons, List.lookup_cons, hname]
      split
      · rw [Option.map_some, htext]
      · exact ih
  exact lookups (forall₂_of_mapM_ok hentries)

theorem forall₂_of_readClasses {cs : List ClassDefinition} {seen : List Iri}
    {cards : List (OrderedMap Iri Cardinality)} (h : readClasses seen cs = .ok cards) :
    List.Forall₂ (fun c own => readCardinalities c = .ok own) cs cards := by
  induction cs generalizing seen cards with
  | nil =>
    cases h
    exact .nil
  | cons c cs ih =>
    obtain ⟨own, hown, h⟩ := bind_eq_ok.1 h
    split at h
    · cases h
    · obtain ⟨rest, hrest, h⟩ := bind_eq_ok.1 h
      cases pure_eq_ok.1 h
      exact .cons hown (ih hrest)

theorem find?_of_readClasses {cs : List ClassDefinition} {cards : List (OrderedMap Iri Cardinality)}
    (h : List.Forall₂ (fun c own => readCardinalities c = .ok own) cs cards) (above : Hierarchy)
    (class_ property : Iri) :
    (((List.zipWith (classInfo above) cs cards).find? (·.iri == class_)).bind
        (·.cardinalities.find? property)).map Cardinality.text =
      (cs.find? (·.iri == class_)).bind (·.cardinalities.find? property) := by
  induction h with
  | nil => rfl
  | @cons c own _ _ hown _ ih =>
    have hname : (classInfo above c own).iri = c.iri := rfl
    rw [List.zipWith_cons_cons, List.find?_cons, List.find?_cons, hname]
    cases c.iri == class_ with
    | true => exact find?_of_readCardinalities hown property
    | false => exact ih

/-- **A class declares in an ontology what its definition declares.** -/
theorem own?_text {defs : Definitions} {o : Ontology} (h : ofDefinitions defs = .ok o)
    (class_ property : Iri) :
    (o.own? class_ property).map Cardinality.text = defs.declared? class_ property := by
  obtain ⟨_, classes, _, parts⟩ := parts_of_ofDefinitions h
  obtain rfl := parts.made
  exact find?_of_readClasses (forall₂_of_readClasses parts.classesRead) classes class_ property

end Ontology

/-! ## The nearest declaration -/

/-- The IRI is the start, or is reached from it by this many steps to a direct parent. -/
def Hierarchy.Reaches (h : Hierarchy) (start : Iri) (n : Nat) (iri : Iri) : Prop :=
  n = 0 ∧ iri = start ∨ h.Chain start n iri

section
variable {h : Hierarchy} {above below : Iri → List Iri} {isBelow : Iri → Iri → Bool}
  (hexact : h.Exact above below isBelow) {start : Iri}
include hexact

theorem Hierarchy.Exact.mem_lineage_iff {iri : Iri} :
    iri ∈ start :: above start ↔ ∃ n, h.Reaches start n iri := by
  rw [List.mem_cons, hexact.above_iff]
  constructor
  · rintro (rfl | ⟨n, hchain⟩)
    · exact ⟨0, .inl ⟨rfl, rfl⟩⟩
    · exact ⟨n, .inr hchain⟩
  · rintro ⟨n, ⟨_, rfl⟩ | hchain⟩
    · exact .inl rfl
    · exact .inr ⟨n, hchain⟩

/-- What is reached by fewer steps than an IRI comes before it. -/
theorem Hierarchy.Exact.before_of_nearer {far near : Iri} {m n : Nat} {before after : List Iri}
    (hsplit : start :: above start = before ++ far :: after)
    (hfar : ∀ k, h.Reaches start k far → n ≤ k) (hnear : h.Reaches start m near) (hlt : m < n) :
    near ∈ before := by
  have hmem : near ∈ before ++ far :: after := hsplit ▸ hexact.mem_lineage_iff.2 ⟨m, hnear⟩
  rcases List.mem_append.1 hmem with hbefore | hrest
  · exact hbefore
  rcases List.mem_cons.1 hrest with rfl | hafter
  · exact absurd (hfar m hnear) (Nat.not_le.2 hlt)
  cases before with
  | nil =>
    cases hsplit
    exact absurd (hfar 0 (.inl ⟨rfl, rfl⟩)) (Nat.not_le.2 (Nat.zero_lt_of_lt hlt))
  | cons first before =>
    -- What comes later is reached by as many steps at least, or is the start once more.
    rw [List.cons_append, List.cons.injEq] at hsplit
    obtain ⟨rfl, habove⟩ := hsplit
    have hlater : near ∈ above start := by
      rw [habove]
      exact List.mem_append_right _ (List.mem_cons_of_mem _ hafter)
    rcases hnear with ⟨_, rfl⟩ | hchain
    · exact absurd hlater (hexact.above_irrefl near)
    · have hsorted := hexact.above_sorted start
      rw [habove, List.pairwise_append] at hsorted
      obtain ⟨i, j, hi, hj, hij⟩ := List.rel_of_pairwise_cons hsorted.2.1 hafter
      have hle := hfar i (.inr hi.chain)
      have hleast := hj.least m hchain
      omega

end

namespace Ontology

section
variable {defs : Definitions} {o : Ontology} (h : ofDefinitions defs = .ok o)
  (class_ property : Iri)
include h

theorem own?_eq_none_iff : o.own? class_ property = none ↔
    defs.declared? class_ property = none := by
  rw [← own?_text h, Option.map_eq_none_iff]

/-- There is no cardinality only where no class that is reached declares one. -/
theorem cardinality_eq_none_iff : o.cardinality class_ property = none ↔ ∀ n declaring,
    defs.classHierarchy.Reaches class_ n declaring → defs.declared? declaring property = none := by
  have hexact := classes_exact h
  rw [cardinality_eq_findSome?, List.findSome?_eq_none_iff]
  constructor
  · intro hnone n declaring hreaches
    exact (own?_eq_none_iff h _ _).1 (hnone declaring (hexact.mem_lineage_iff.2 ⟨n, hreaches⟩))
  · intro hnone iri hiri
    obtain ⟨n, hreaches⟩ := hexact.mem_lineage_iff.1 hiri
    exact (own?_eq_none_iff h _ _).2 (hnone n iri hreaches)

/-- A cardinality is declared by a class that is reached, and by none that is reached by fewer
steps. -/
theorem nearest_of_cardinality {k : Cardinality} (hk : o.cardinality class_ property = some k) :
    ∃ n declaring, defs.classHierarchy.Reaches class_ n declaring ∧
      defs.declared? declaring property = some k.text ∧
      ∀ m < n, ∀ nearer, defs.classHierarchy.Reaches class_ m nearer →
        defs.declared? nearer property = none := by
  classical
  have hexact := classes_exact h
  rw [cardinality_eq_findSome?, List.findSome?_eq_some_iff] at hk
  obtain ⟨before, declaring, after, hsplit, hdeclared, hbefore⟩ := hk
  have hreached : ∃ n, defs.classHierarchy.Reaches class_ n declaring := by
    apply hexact.mem_lineage_iff.1
    rw [hsplit]
    exact List.mem_append_right _ List.mem_cons_self
  refine ⟨Nat.find hreached, declaring, Nat.find_spec hreached, ?_, ?_⟩
  · rw [← own?_text h, hdeclared, Option.map_some]
  · intro m hm nearer hnearer
    have hmem := hexact.before_of_nearer hsplit (fun k hr => Nat.find_min' hreached hr) hnearer hm
    exact (own?_eq_none_iff h _ _).1 (hbefore nearer hmem)

end

end Ontology

/-- **The nearest declaration of a cardinality wins.** In an ontology, whatever definitions it is
built from, the cardinality of a property for a class is the one under which the property stands
among all cardinalities of the class; an unknown class has none. It is as it is written in the
definition of a class that is reached by some number of steps to direct superclasses, and no class
that is reached by fewer declares the property. There is none only if no class that is reached
declares one. -/
theorem nearest_cardinality_wins {defs : Definitions} {o : Ontology}
    (hbuild : Ontology.build defs = .ok o) (class_ property : Iri) :
    let all := Definitions.skeleton ++ defs
    o.cardinality class_ property = (o.cardinalities class_).find? property ∧
    (class_ ∉ all.classes.map (·.iri) → o.cardinality class_ property = none ∧
      o.cardinalities class_ = .empty) ∧
    (∀ k, o.cardinality class_ property = some k → ∃ n declaring,
      all.classHierarchy.Reaches class_ n declaring ∧
      all.declared? declaring property = some k.text ∧
      ∀ m < n, ∀ nearer, all.classHierarchy.Reaches class_ m nearer →
        all.declared? nearer property = none) ∧
    (o.cardinality class_ property = none ↔ ∀ n declaring,
      all.classHierarchy.Reaches class_ n declaring → all.declared? declaring property = none) := by
  intro all
  refine ⟨(o.find?_cardinalities class_ property).symm, ?_,
    fun _ => Ontology.nearest_of_cardinality hbuild class_ property,
    Ontology.cardinality_eq_none_iff hbuild class_ property⟩
  intro hunknown
  obtain ⟨_, _, hb⟩ := Ontology.built_of_ofDefinitions hbuild
  have hclass : o.class? class_ = none := by
    rw [← hb.classNames] at hunknown
    simpa [Ontology.class?] using hunknown
  simp [Ontology.cardinality, Ontology.cardinalities, Ontology.lineage, hclass]

/-- A villa is a building directly and a dwelling by way of a house; both declare a number of
rooms. -/
theorem nearest_cardinality_wins_shortcut :
    let villa : Iri := "http://www.knora.org/ontology/0001/house#Villa"
    let house : Iri := "http://www.knora.org/ontology/0001/house#House"
    let dwelling : Iri := "http://www.knora.org/ontology/0001/house#Dwelling"
    let building : Iri := "http://www.knora.org/ontology/0001/house#Building"
    let hasRoom : Iri := "http://www.knora.org/ontology/0001/house#hasRoom"
    let defs : Definitions :=
      { classes := [⟨villa, [house, building], .empty⟩, ⟨house, [dwelling], .empty⟩,
          ⟨dwelling, [Base.resource], .ofList [(hasRoom, "1-n")]⟩,
          ⟨building, [Base.resource], .ofList [(hasRoom, "0-n")]⟩] }
    ∃ o, Ontology.build defs = .ok o ∧ o.cardinality villa hasRoom = some .mayHaveMany ∧
      (o.cardinalities villa).find? hasRoom = some .mayHaveMany ∧
      ∃ n declaring, (Definitions.skeleton ++ defs).classHierarchy.Reaches villa n declaring ∧
        (Definitions.skeleton ++ defs).declared? declaring hasRoom = some "0-n" ∧
        ∀ m < n, ∀ nearer, (Definitions.skeleton ++ defs).classHierarchy.Reaches villa m nearer →
          (Definitions.skeleton ++ defs).declared? nearer hasRoom = none := by
  intro villa house dwelling building hasRoom defs
  have hrun : ((Ontology.build defs).toOption.map fun o => decide (
      o.cardinality villa hasRoom = some .mayHaveMany)) = some true := by
    decide +kernel
  obtain ⟨o, hbuild, hrooms⟩ := Ontology.exists_built hrun
  obtain ⟨hall, _, hnearest, _⟩ := nearest_cardinality_wins hbuild villa hasRoom
  exact ⟨o, hbuild, hrooms, hall ▸ hrooms, hnearest _ hrooms⟩

end OntoQuery
