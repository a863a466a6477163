import Mathlib
import OntoQuery.Proofs.Entities
import OntoQuery.Proofs.Subsumption
import OntoQuery.Typing.Rule

/-!
# Refining types comes to an end

A rule changes the types by giving an entity its first type or a more specific one. A type is
followed by a class below it, or by a value class where it was none itself; in both cases there are
fewer classes that can still follow (`Ontology.room_lt_of_replace`). So with a number for each
entity, the classes that can still follow its type or one more than all if it has none, every change
lowers the sum (`TypeMap.slack`), and every rule over given entities descends
(`Typist.statement_descends`, `Typist.filter_descends`, `Typist.subjectClass_descends`).
-/

namespace OntoQuery

theorem countP_lt_countP {α : Type} {p q : α → Bool} {l : List α}
    (hpq : ∀ b ∈ l, p b = true → q b = true) {a : α} (ha : a ∈ l) (hp : p a = false)
    (hq : q a = true) : l.countP p < l.countP q := by
  obtain ⟨before, after, rfl⟩ := List.append_of_mem ha
  have hbefore : before.countP p ≤ before.countP q :=
    List.countP_mono_left fun b hb => hpq b (List.mem_append_left _ hb)
  have hafter : after.countP p ≤ after.countP q :=
    List.countP_mono_left fun b hb => hpq b (List.mem_append_right _ (List.mem_cons_of_mem _ hb))
  simp only [List.countP_append, List.countP_cons, hp, hq, if_true, Bool.false_eq_true, if_false]
  omega

/-! ## What can still follow a type -/

namespace Ontology

theorem class?_of_mem_superclasses {o : Ontology} {class_ above : Iri}
    (h : above ∈ o.superclasses class_) : (o.class? class_).isSome = true := by
  unfold superclasses at h
  cases hc : o.class? class_ with
  | none => simp [hc] at h
  | some c => rfl

theorem exists_of_class? {o : Ontology} {class_ : Iri} (h : (o.class? class_).isSome = true) :
    ∃ c ∈ o.classes, c.iri = class_ := by
  obtain ⟨c, hc⟩ := Option.isSome_iff_exists.1 h
  exact ⟨c, List.mem_of_find?_eq_some hc, by simpa using List.find?_some hc⟩

section
variable {defs : Definitions} {o : Ontology} (h : ofDefinitions defs = .ok o)
include h

theorem superclasses_trans {a b c : Iri} (hab : b ∈ o.superclasses a) (hbc : c ∈ o.superclasses b) :
    c ∈ o.superclasses a := by
  rw [mem_superclasses_iff h] at hab hbc ⊢
  obtain ⟨m, hab⟩ := hab
  obtain ⟨n, hbc⟩ := hbc
  exact ⟨m + n, hab.trans hbc⟩

theorem not_mem_superclasses_self (a : Iri) : a ∉ o.superclasses a := by
  obtain ⟨classes, properties, hb⟩ := built_of_ofDefinitions h
  intro ha
  obtain ⟨n, hchain⟩ := (mem_superclasses_iff h).1 ha
  obtain ⟨hnames, hentries⟩ := Hierarchy.closure_entries hb.classesClosed
  have hn : classes.names.Nodup := hnames ▸ hb.classesOnce
  obtain ⟨⟨_, found⟩, he, rfl⟩ := List.mem_map.1 (hnames ▸ Hierarchy.chain_starts hchain)
  rw [hb.superclasses_eq, Hierarchy.parents_of_mem hn he] at ha
  exact (Hierarchy.ancestors_searched hb.classesRooted (hentries _ he)).apart ha

theorem isSubclassOf_of_mem {a b c : Iri} (hab : b ∈ o.superclasses a)
    (hbc : o.isSubclassOf b c = true) : o.isSubclassOf a c = true := by
  simp only [isSubclassOf, Bool.or_eq_true, beq_iff_eq, List.contains_iff_mem] at hbc ⊢
  rcases hbc with rfl | hbc
  · exact .inr hab
  · exact .inr (superclasses_trans h hab hbc)

/-- What is below a value class is one. -/
theorem isValueClass_of_mem {a b : Iri} (hab : b ∈ o.superclasses a)
    (hb : o.isValueClass b = true) : o.isValueClass a = true := by
  simp only [isValueClass, Bool.and_eq_true] at hb ⊢
  exact ⟨class?_of_mem_superclasses hab, isSubclassOf_of_mem h hab hb.2⟩

end

/-- A type can be followed by the class: one that is below it, or a value class where it is none. -/
def canFollow (o : Ontology) (type class_ : Iri) : Bool :=
  (o.superclasses class_).contains type || !o.isValueClass type && o.isValueClass class_

/-- The number of classes that can follow a type. -/
def room (o : Ontology) (type : Iri) : Nat :=
  o.classes.countP fun c => o.canFollow type c.iri

theorem canFollow_iff {o : Ontology} {type class_ : Iri} :
    o.canFollow type class_ = true ↔
      type ∈ o.superclasses class_ ∨ o.isValueClass type = false ∧
        o.isValueClass class_ = true := by
  simp [canFollow]

theorem class?_of_canFollow {o : Ontology} {type class_ : Iri}
    (h : o.canFollow type class_ = true) : (o.class? class_).isSome = true := by
  rcases canFollow_iff.1 h with habove | ⟨_, hvalue⟩
  · exact class?_of_mem_superclasses habove
  · exact (Bool.and_eq_true_iff.1 hvalue).1

/-- A type that replaces another can follow it. -/
theorem canFollow_of_replace {o : Ontology} {current candidate : Iri}
    (hr : o.refine current candidate = .replace) : o.canFollow current candidate = true := by
  rw [canFollow_iff]
  unfold refine at hr
  split at hr
  · cases hr
  · rename_i hnot
    split at hr
    · rename_i hsub
      have hne : candidate ≠ current := by
        rintro rfl
        simp [isSubclassOf] at hnot
      exact .inl (by simpa [isSubclassOf, hne] using hsub)
    · split at hr
      · split at hr
        · split at hr
          · rename_i hvalue
            simp only [Bool.and_eq_true, Bool.not_eq_true'] at hvalue
            exact .inr hvalue.symm
          · cases hr
        · cases hr
      · cases hr

section
variable {defs : Definitions} {o : Ontology} (h : ofDefinitions defs = .ok o)
include h

theorem canFollow_self (type : Iri) : o.canFollow type type = false := by
  rw [← Bool.not_eq_true, canFollow_iff]
  rintro (hself | ⟨hnot, hvalue⟩)
  · exact not_mem_superclasses_self h type hself
  · exact Bool.false_ne_true (hnot.symm.trans hvalue)

theorem canFollow_trans {a b c : Iri} (hab : o.canFollow a b = true)
    (hbc : o.canFollow b c = true) : o.canFollow a c = true := by
  rw [canFollow_iff] at hab hbc ⊢
  rcases hbc with hbc | ⟨hb, hc⟩
  · rcases hab with hab | ⟨ha, hb⟩
    · exact .inl (superclasses_trans h hbc hab)
    · exact .inr ⟨ha, isValueClass_of_mem h hbc hb⟩
  · refine .inr ⟨?_, hc⟩
    rcases hab with hab | ⟨ha, _⟩
    · -- A type above one that is no value class is none either.
      rw [← Bool.not_eq_true]
      intro ha
      exact Bool.false_ne_true (hb.symm.trans (isValueClass_of_mem h hab ha))
    · exact ha

/-- After a type that followed another, there is less that can still follow. -/
theorem room_lt {type next : Iri} (hfollow : o.canFollow type next = true) :
    o.room next < o.room type := by
  obtain ⟨c, hc, rfl⟩ := exists_of_class? (class?_of_canFollow hfollow)
  exact countP_lt_countP (fun d _ hd => canFollow_trans h hfollow hd) hc (canFollow_self h c.iri)
    hfollow

/-- **A type that replaces another leaves less to follow.** -/
theorem room_lt_of_replace {current candidate : Iri} (hr : o.refine current candidate = .replace) :
    o.room candidate < o.room current :=
  room_lt h (canFollow_of_replace hr)

/-- A type that comes after another by replacements can follow it. -/
theorem canFollow_of_refines {type next : Iri}
    (hr : Relation.ReflTransGen (fun a b => o.refine a b = .replace) type next) :
    type = next ∨ o.canFollow type next = true := by
  induction hr with
  | refl => exact .inl rfl
  | tail _ hstep ih =>
    have hlast := canFollow_of_replace hstep
    rcases ih with rfl | hfirst
    · exact .inr hlast
    · exact .inr (canFollow_trans h hfirst hlast)

/-- A type that can follow another and keeps when that one comes replaces it. -/
theorem replace_of_canFollow {type next : Iri} (hfollow : o.canFollow type next = true)
    (hkeep : o.refine next type = .keep) : o.refine type next = .replace := by
  have hnot : o.isSubclassOf type next = false := by
    rw [← Bool.not_eq_true]
    intro hsub
    have hback : type = next ∨ next ∈ o.superclasses type := by simpa [isSubclassOf] using hsub
    rcases hback with rfl | hback
    · exact Bool.false_ne_true ((canFollow_self h type).symm.trans hfollow)
    · have hback : o.canFollow next type = true := canFollow_iff.2 (.inl hback)
      exact Bool.false_ne_true
        ((canFollow_self h type).symm.trans (canFollow_trans h hfollow hback))
  unfold refine at hkeep ⊢
  rw [hnot, if_neg Bool.false_ne_true]
  split
  · rfl
  · rename_i hnot'
    -- Not below the type, so it is a value class of the same kind.
    rw [if_neg hnot', hnot, if_neg Bool.false_ne_true] at hkeep
    have hvalue : o.isValueClass type = false ∧ o.isValueClass next = true := by
      rcases canFollow_iff.1 hfollow with habove | hvalue
      · exact absurd (by simp [isSubclassOf, habove]) hnot'
      · exact hvalue
    split at hkeep
    · rename_i a b ha hb
      split at hkeep
      · rename_i hsame
        simp [ha, hb, hsame, hvalue]
      · cases hkeep
    · cases hkeep

end

/-- What can still come to an entity: the classes that can follow its type, or one more than all if
it has none. -/
def slack (o : Ontology) : Option Iri → Nat
  | none => o.classes.length + 1
  | some type => o.room type

theorem slack_some_lt (o : Ontology) (type : Iri) : o.slack (some type) < o.slack none :=
  Nat.lt_succ_of_le (List.countP_le_length)

end Ontology

/-! ## Rules descend -/

namespace TypeMap

/-- What can still come to the entities, added up. -/
def slack (o : Ontology) (entities : List Typeable) (types : TypeMap) : Nat :=
  (entities.map fun e => o.slack (types.find? e)).sum

theorem slack_le (o : Ontology) (entities : List Typeable) (types : TypeMap) :
    types.slack o entities ≤ entities.length * (o.classes.length + 1) := by
  have hle : ∀ n ∈ entities.map fun e => o.slack (types.find? e), n ≤ o.classes.length + 1 := by
    intro n hn
    obtain ⟨e, _, rfl⟩ := List.mem_map.1 hn
    cases types.find? e with
    | none => exact Nat.le_refl _
    | some type => exact (o.slack_some_lt type).le
  simpa [slack] using List.sum_le_card_nsmul _ _ hle

theorem slack_insert_lt {o : Ontology} {entities : List Typeable} {types : TypeMap} {e : Typeable}
    (he : e ∈ entities) {type : Iri} (hlt : o.slack (some type) < o.slack (types.find? e)) :
    slack o entities (types.insert e type) < slack o entities types := by
  refine List.sum_lt_sum _ _ ?_ ⟨e, he, by simpa using hlt⟩
  intro e' _
  rw [OrderedMap.find?_insert]
  split
  · rename_i heq
    rw [heq]
    exact hlt.le
  · exact Nat.le_refl _

theorem keys_insert_subset {entities : List Typeable} {types : TypeMap} (hk : types.keys ⊆ entities)
    {e : Typeable} (he : e ∈ entities) (type : Iri) : (types.insert e type).keys ⊆ entities := by
  rw [OrderedMap.keys_insert]
  split
  · exact hk
  · exact List.append_subset.2 ⟨hk, by simpa using he⟩

/-- From `types` to `types'`, still only entities among the given ones have types, and a change
leaves less to come. -/
structure Descends (o : Ontology) (entities : List Typeable) (types types' : TypeMap)
    (changed : Bool) : Prop where
  keys : types'.keys ⊆ entities
  slack : types'.slack o entities + changed.toNat ≤ types.slack o entities

section
variable {o : Ontology} {entities : List Typeable} {types types' types'' : TypeMap}

theorem Descends.refl (hk : types.keys ⊆ entities) : Descends o entities types types false :=
  ⟨hk, Nat.le_refl _⟩

theorem Descends.insert (hk : types.keys ⊆ entities) {e : Typeable} (he : e ∈ entities) {type : Iri}
    (hlt : o.slack (some type) < o.slack (types.find? e)) :
    Descends o entities types (types.insert e type) true :=
  ⟨keys_insert_subset hk he type, slack_insert_lt he hlt⟩

theorem Descends.trans {changed changed' : Bool} (h : Descends o entities types types' changed)
    (h' : Descends o entities types' types'' changed') :
    Descends o entities types types'' (changed || changed') := by
  refine ⟨h'.keys, ?_⟩
  have hor : (changed || changed').toNat ≤ changed.toNat + changed'.toNat := by
    cases changed <;> cases changed' <;> decide
  have := h.slack
  have := h'.slack
  omega

end

end TypeMap

/-- The rule only gives types to the entities, and each change leaves less to come. -/
def Rule.Descends (o : Ontology) (entities : List Typeable) (r : Rule) : Prop :=
  ∀ types types' changed, types.keys ⊆ entities → r types = .ok (types', changed) →
    TypeMap.Descends o entities types types' changed

namespace Rule
variable {o : Ontology} {entities : List Typeable}

theorem idle_descends : idle.Descends o entities := by
  intro types types' changed hk hrun
  cases hrun
  exact .refl hk

theorem Descends.andThen {a b : Rule} (ha : a.Descends o entities) (hb : b.Descends o entities) :
    (a.andThen b).Descends o entities := by
  intro types types' changed hk hrun
  obtain ⟨⟨middle, first⟩, hfirst, hrun⟩ := bind_eq_ok.1 hrun
  obtain ⟨⟨last, second⟩, hsecond, hrun⟩ := bind_eq_ok.1 hrun
  cases pure_eq_ok.1 hrun
  have hmiddle := ha _ _ _ hk hfirst
  exact hmiddle.trans (hb _ _ _ hmiddle.keys hsecond)

theorem Descends.all {rs : List Rule} (h : ∀ r ∈ rs, r.Descends o entities) :
    (all rs).Descends o entities := by
  induction rs with
  | nil => exact idle_descends
  | cons r rs ih =>
    exact (h r List.mem_cons_self).andThen (ih fun r' hr' => h r' (List.mem_cons_of_mem _ hr'))

end Rule

namespace Typist
variable {defs : Definitions} {t : Typist} (h : Ontology.ofDefinitions defs = .ok t.ontology)
  {entities : List Typeable}
include h

theorem assign_descends {e : Typeable} (he : e ∈ entities) (type : Iri) :
    (t.assign e type).Descends t.ontology entities := by
  intro types types' changed hk hrun
  unfold assign at hrun
  split at hrun
  · rename_i hnone
    cases hrun
    refine .insert hk he ?_
    rw [hnone]
    exact t.ontology.slack_some_lt type
  · rename_i current hcurrent
    split at hrun
    · cases hrun
      exact .refl hk
    · rename_i hreplace
      cases hrun
      refine .insert hk he ?_
      rw [hcurrent]
      exact Ontology.room_lt_of_replace h hreplace
    · cases hrun

theorem assign?_descends {e? : Option Typeable} (he : ∀ e ∈ e?, e ∈ entities) (type? : Option Iri) :
    (t.assign? e? type?).Descends t.ontology entities := by
  cases e? with
  | none => exact Rule.idle_descends
  | some e =>
    cases type? with
    | none => exact Rule.idle_descends
    | some type => exact assign_descends h (he e rfl) type

theorem share_descends (a : Typeable) {b : Option Typeable} (hb : ∀ e ∈ b, e ∈ entities) :
    (t.share a b).Descends t.ontology entities :=
  fun types types' changed hk hrun =>
    assign?_descends h hb (types.find? a) types types' changed hk hrun

theorem property_descends {p : Iri} (hp : .iri p ∈ entities) {subject object : Option Typeable}
    (hs : ∀ e ∈ subject, e ∈ entities) (ho : ∀ e ∈ object, e ∈ entities) :
    (t.property p subject object).Descends t.ontology entities := by
  intro types types' changed hk hrun
  unfold property at hrun
  split at hrun
  · cases pure_eq_ok.1 hrun
    exact .refl hk
  · obtain ⟨objectType, _, hrun⟩ := bind_eq_ok.1 hrun
    obtain ⟨subjectType, _, hrun⟩ := bind_eq_ok.1 hrun
    refine Rule.Descends.all ?_ types types' changed hk hrun
    have hself : ∀ e ∈ some (Typeable.iri p), e ∈ entities := by
      rintro e ⟨⟩
      exact hp
    intro r hr
    simp only [List.mem_cons, List.not_mem_nil, or_false] at hr
    rcases hr with rfl | rfl | rfl
    · exact assign?_descends h hself objectType
    · exact assign?_descends h ho objectType
    · exact assign?_descends h hs subjectType

theorem propertyVariable_descends {v : Variable} (hv : .var v ∈ entities) {object : Entity}
    (ho : ∀ e ∈ Typeable.ofEntity? object, e ∈ entities) :
    (t.propertyVariable v object).Descends t.ontology entities := by
  have hself : ∀ e ∈ some (Typeable.var v), e ∈ entities := by
    rintro e ⟨⟩
    exact hv
  intro types types' changed hk hrun
  unfold propertyVariable at hrun
  split at hrun
  · exact assign?_descends h ho _ types types' changed hk hrun
  · split at hrun
    · exact assign_descends h hv _ types types' changed hk hrun
    · split at hrun
      · exact share_descends h _ hself types types' changed hk hrun
      · cases hrun
        exact .refl hk

theorem statement_descends {s : Statement} (hs : s.typeables ⊆ entities) :
    (t.statement s).Descends t.ontology entities := by
  have hmem : ∀ a ∈ s.entities, ∀ e ∈ Typeable.ofEntity? a, e ∈ entities :=
    fun a ha e he => hs (List.mem_filterMap.2 ⟨a, ha, he⟩)
  have hsubject := hmem s.subject (by simp [Statement.entities])
  have hpredicate := hmem s.predicate (by simp [Statement.entities])
  have hobject := hmem s.object (by simp [Statement.entities])
  unfold statement
  dsimp only
  split
  · split
    · exact assign?_descends h hsubject _
    · exact Rule.idle_descends
  · split
    · rename_i p hp
      exact property_descends h (hpredicate _ hp) hsubject hobject
    · rename_i v hv
      exact propertyVariable_descends h (hpredicate _ hv) hobject
    · exact Rule.idle_descends

omit h in
theorem textArgument?_mem {e : Expression} {a : Typeable} (ha : textArgument? e = some a) :
    a ∈ e.typeables := by
  fun_induction textArgument? e with
  | case1 v => simpa [Typeable.ofEntity?, eq_comm] using ha
  | case2 e es ih => exact Expression.typeables_argument .str e es (ih ha)
  | case3 e _ _ => cases ha

theorem comparison_descends (op : Comparison) {a b : Entity}
    (ha : ∀ e ∈ Typeable.ofEntity? a, e ∈ entities)
    (hb : ∀ e ∈ Typeable.ofEntity? b, e ∈ entities) :
    (t.comparison op a b).Descends t.ontology entities := by
  unfold comparison
  split
  · exact assign_descends h (ha _ rfl) _
  · exact assign_descends h (hb _ rfl) _
  · split
    · exact (share_descends h _ hb).andThen (share_descends h _ ha)
    · exact Rule.idle_descends
  · split
    · intro types types' changed hk hrun
      obtain ⟨type, _, hrun⟩ := bind_eq_ok.1 hrun
      exact assign?_descends h ha type types types' changed hk hrun
    · exact Rule.idle_descends
  · split
    · intro types types' changed hk hrun
      obtain ⟨type, _, hrun⟩ := bind_eq_ok.1 hrun
      exact assign?_descends h hb type types types' changed hk hrun
    · exact Rule.idle_descends
  · exact Rule.idle_descends

theorem filter_descends {e : Expression} (he : e.typeables ⊆ entities) :
    (t.filter e).Descends t.ontology entities := by
  fun_induction t.filter e with
  | case1 left right ihl ihr | case2 left right ihl ihr =>
    simp only [Expression.typeables_and, Expression.typeables_or, List.append_subset] at he
    exact (ihl he.1).andThen (ihr he.2)
  | case3 inner ih => exact ih he
  | case4 a op b =>
    simp only [Expression.typeables_compare, Expression.typeables_entity, List.append_subset] at he
    exact comparison_descends h op (fun e hmem => he.1 (by simpa using hmem))
      fun e hmem => he.2 (by simpa using hmem)
  | case5 e es | case6 e es =>
    refine assign?_descends h (fun a ha => he ?_) _
    exact Expression.typeables_argument _ e es (textArgument?_mem ha)
  | case7 e es ih => exact ih (List.Subset.trans (Expression.typeables_argument _ e es) he)
  | case8 e => exact Rule.idle_descends

theorem subjectClass_descends {s : Statement} (hs : s.typeables ⊆ entities) :
    (t.subjectClass s).Descends t.ontology entities := by
  intro types types' changed hk hrun
  unfold subjectClass at hrun
  split at hrun
  · rename_i v _ _ hv _
    have hmem : .var v ∈ entities :=
      hs (List.mem_filterMap.2 ⟨s.predicate, by simp [Statement.entities], by rw [hv]; rfl⟩)
    split at hrun
    · cases hrun
      exact .refl hk
    · split at hrun
      · cases hrun
        exact .refl hk
      · obtain ⟨found, _, hrun⟩ := bind_eq_ok.1 hrun
        split at hrun
        · exact assign_descends h hmem _ types types' changed hk hrun
        · cases hrun
        · cases pure_eq_ok.1 hrun
          exact .refl hk
  · cases hrun
    exact .refl hk

end Typist

end OntoQuery
