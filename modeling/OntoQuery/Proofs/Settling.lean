import OntoQuery.Proofs.Convergence
import OntoQuery.Proofs.FixedPoint

/-!
# Rules settle alike in any order

Types that settle under one order of the demands are a fixed point, and a run under any other order
stays above every fixed point: whatever it gives to an entity, the type there keeps when that comes.
So it cannot fail, and where it settles too, both are above each other and hence the same
(`Pass.settle_agree`).

For that the types have to be in order (`Ontology.Orderly`). In general they are not: keeping is not
transitive, because a datatype stands beside a value class but not beside the classes below it; two
datatypes of one kind keep each other; and a class may be below two that conflict.
-/

namespace OntoQuery

/-! ## Types in order -/

/-- Among the types, keeping is an order, and what one of them keeps does not conflict. -/
structure Ontology.Orderly (o : Ontology) (types : List Iri) : Prop where
  antisymm : ∀ a ∈ types, ∀ b ∈ types, o.refine a b = .keep → o.refine b a = .keep → a = b
  trans : ∀ a ∈ types, ∀ b ∈ types, ∀ c ∈ types,
    o.refine a b = .keep → o.refine b c = .keep → o.refine a c = .keep
  comparable : ∀ a ∈ types, ∀ b ∈ types, ∀ c ∈ types,
    o.refine a b = .keep → o.refine a c = .keep → o.refine b c ≠ .conflict

instance (o : Ontology) (types : List Iri) : Decidable (o.Orderly types) :=
  decidable_of_iff
    ((∀ a ∈ types, ∀ b ∈ types, o.refine a b = .keep → o.refine b a = .keep → a = b) ∧
      (∀ a ∈ types, ∀ b ∈ types, ∀ c ∈ types,
        o.refine a b = .keep → o.refine b c = .keep → o.refine a c = .keep) ∧
      ∀ a ∈ types, ∀ b ∈ types, ∀ c ∈ types,
        o.refine a b = .keep → o.refine a c = .keep → o.refine b c ≠ .conflict)
    ⟨fun h => ⟨h.1, h.2.1, h.2.2⟩,
      fun h => ⟨h.antisymm, h.trans, h.comparable⟩⟩

namespace Ontology

theorem refine_self (o : Ontology) (type : Iri) : o.refine type type = .keep := by
  simp [refine, isSubclassOf]

/-- A type that replaces another keeps when that one comes again. -/
theorem keep_of_replace {o : Ontology} {current candidate : Iri}
    (h : o.refine current candidate = .replace) : o.refine candidate current = .keep := by
  unfold refine at h ⊢
  split at h
  · cases h
  · rename_i hnot
    split at h
    · rename_i hsub
      rw [if_pos hsub]
    · rename_i hnot'
      rw [if_neg hnot', if_neg hnot]
      split at h
      · rename_i kind kind' hkind hkind'
        rw [hkind', hkind]
        dsimp only
        split at h
        · rename_i heq
          rw [if_pos heq.symm]
          split at h
          · rename_i hvalue
            simp only [Bool.and_eq_true, Bool.not_eq_true'] at hvalue
            rw [if_neg (by simp [hvalue.2])]
          · cases h
        · cases h
      · cases h

end Ontology

namespace TypeMap

/-- The maps have the same types. -/
def Same (types types' : TypeMap) : Prop :=
  ∀ e, types.find? e = types'.find? e

/-- Each entity is listed once, with a type among the given ones. -/
structure Tidy (known : List Iri) (types : TypeMap) : Prop where
  nodup : types.keys.Nodup
  known : ∀ e type, types.find? e = some type → type ∈ known

/-- Every type is kept by the one that the entity has in the second map. -/
def Above (o : Ontology) (types types' : TypeMap) : Prop :=
  ∀ e type, types.find? e = some type → types'.Keeps o e type

theorem empty_tidy (known : List Iri) : Tidy known .empty :=
  ⟨List.nodup_nil, by simp⟩

theorem nodup_insert {types : TypeMap} (h : types.keys.Nodup) (e : Typeable) (type : Iri) :
    (types.insert e type).keys.Nodup := by
  rw [OrderedMap.keys_insert]
  split
  · exact h
  · rename_i hnot
    exact List.nodup_append.2 ⟨h, by simp, by grind⟩

section
variable {o : Ontology} {known : List Iri} {types types' types'' : TypeMap}

theorem Tidy.insert (h : types.Tidy known) (e : Typeable) {type : Iri} (htype : type ∈ known) :
    Tidy known (types.insert e type) := by
  refine ⟨nodup_insert h.nodup e type, fun e' type' he' => ?_⟩
  rw [OrderedMap.find?_insert] at he'
  split at he'
  · cases he'
    exact htype
  · exact h.known e' type' he'

theorem Above.refl (types : TypeMap) : types.Above o types :=
  fun _ type h => ⟨type, h, o.refine_self type⟩

theorem Above.trans (horder : o.Orderly known) (ht : types.Tidy known) (ht' : types'.Tidy known)
    (ht'' : types''.Tidy known) (h : types.Above o types') (h' : types'.Above o types'') :
    types.Above o types'' := by
  intro e type he
  obtain ⟨type', he', hkeep⟩ := h e type he
  obtain ⟨type'', he'', hkeep'⟩ := h' e type' he'
  refine ⟨type'', he'', ?_⟩
  exact horder.trans _ (ht''.known _ _ he'') _ (ht'.known _ _ he') _ (ht.known _ _ he) hkeep' hkeep

theorem Above.antisymm (horder : o.Orderly known) (ht : types.Tidy known) (ht' : types'.Tidy known)
    (h : types.Above o types') (h' : types'.Above o types) : types.Same types' := by
  intro e
  cases he : types.find? e with
  | some type =>
    obtain ⟨type', he', hkeep⟩ := h e type he
    obtain ⟨_, he'', hkeep'⟩ := h' e type' he'
    cases he.symm.trans he''
    rw [he', horder.antisymm _ (ht.known _ _ he) _ (ht'.known _ _ he') hkeep' hkeep]
  | none =>
    cases he' : types'.find? e with
    | none => rfl
    | some type' =>
      obtain ⟨_, he'', _⟩ := h' e type' he'
      cases he.symm.trans he''

theorem Above.insert {e : Typeable} {type : Iri} (h : types.Above o types')
    (hkeeps : types'.Keeps o e type) : Above o (types.insert e type) types' := by
  intro e' type' he'
  rw [OrderedMap.find?_insert] at he'
  split at he'
  · rename_i heq
    cases he'
    exact heq ▸ hkeeps
  · exact h e' type' he'

theorem slack_congr (o : Ontology) (entities : List Typeable) (h : types.Same types') :
    types.slack o entities = types'.slack o entities := by
  simp only [slack, h _]

end

end TypeMap

/-! ## What a run of demands does -/

/-- The demand proposes no type but the given ones, and has no property variable. -/
def Demand.Among (known : List Iri) : Demand → Prop
  | .typed _ type => type ∈ known
  | .follow _ _ => False
  | _ => True

/-- The rule leaves the types tidy, and those that were there above the new ones. -/
def Rule.Lowers (o : Ontology) (known : List Iri) (r : Rule) : Prop :=
  ∀ types : TypeMap, types.Tidy known → ∀ types' changed, r types = .ok (types', changed) →
    types'.Tidy known ∧ types.Above o types'

/-- Above the types `fixed` the rule does not fail, and it stays above them. -/
def Rule.Stays (o : Ontology) (known : List Iri) (fixed : TypeMap) (r : Rule) : Prop :=
  ∀ types : TypeMap, types.Tidy known → types.Above o fixed →
    ∃ made, r types = .ok made ∧ made.1.Above o fixed

namespace Rule
variable {o : Ontology} {known : List Iri} {fixed : TypeMap}

theorem idle_lowers : idle.Lowers o known := by
  intro types ht types' changed h
  cases h
  exact ⟨ht, .refl _⟩

theorem Lowers.andThen (horder : o.Orderly known) {a b : Rule} (ha : a.Lowers o known)
    (hb : b.Lowers o known) : (a.andThen b).Lowers o known := by
  intro types ht types' changed h
  obtain ⟨middle, first, second, hfirst, hsecond, _⟩ := andThen_ok h
  obtain ⟨hmiddle, habove⟩ := ha types ht _ _ hfirst
  obtain ⟨hlast, habove'⟩ := hb middle hmiddle _ _ hsecond
  exact ⟨hlast, habove.trans horder ht hmiddle hlast habove'⟩

theorem Lowers.all (horder : o.Orderly known) {rs : List Rule} (h : ∀ r ∈ rs, r.Lowers o known) :
    (Rule.all rs).Lowers o known := by
  induction rs with
  | nil => exact idle_lowers
  | cons r rs ih =>
    exact (h r List.mem_cons_self).andThen horder (ih fun r' hr' =>
      h r' (List.mem_cons_of_mem _ hr'))

theorem idle_stays : idle.Stays o known fixed :=
  fun types _ habove => ⟨(types, false), rfl, habove⟩

theorem Stays.andThen {a b : Rule} (hlowers : a.Lowers o known) (ha : a.Stays o known fixed)
    (hb : b.Stays o known fixed) : (a.andThen b).Stays o known fixed := by
  intro types ht habove
  obtain ⟨middle, hfirst, hmiddle⟩ := ha types ht habove
  obtain ⟨last, hsecond, hlast⟩ := hb middle.1 (hlowers types ht _ _ hfirst).1 hmiddle
  exact ⟨(last.1, middle.2 || last.2), andThen_eq_ok hfirst hsecond, hlast⟩

theorem Stays.all {rs : List Rule} (hlowers : ∀ r ∈ rs, r.Lowers o known)
    (h : ∀ r ∈ rs, r.Stays o known fixed) : (Rule.all rs).Stays o known fixed := by
  induction rs with
  | nil => exact idle_stays
  | cons r rs ih =>
    refine Stays.andThen (hlowers r List.mem_cons_self) (h r List.mem_cons_self) (ih ?_ ?_)
    · exact fun r' hr' => hlowers r' (List.mem_cons_of_mem _ hr')
    · exact fun r' hr' => h r' (List.mem_cons_of_mem _ hr')

end Rule

namespace Typist
variable {t : Typist} {known : List Iri} {fixed : TypeMap}

theorem assign_lowers {type : Iri} (htype : type ∈ known) (e : Typeable) :
    (t.assign e type).Lowers t.ontology known := by
  intro types ht types' changed h
  rcases assign_ok h with ⟨_, rfl, _⟩ | ⟨_, rfl, hreplace⟩
  · exact ⟨ht, .refl _⟩
  · refine ⟨ht.insert e htype, fun e' type' he' => ?_⟩
    unfold TypeMap.Keeps
    rw [OrderedMap.find?_insert]
    split
    · rename_i heq
      subst heq
      exact ⟨type, rfl, Ontology.keep_of_replace (hreplace type' he')⟩
    · exact ⟨type', he', t.ontology.refine_self type'⟩

theorem share_lowers (a b : Typeable) : (t.share a (some b)).Lowers t.ontology known := by
  intro types ht types' changed h
  unfold share at h
  cases ha : types.find? a with
  | none =>
    rw [ha] at h
    exact Rule.idle_lowers types ht _ _ h
  | some type =>
    rw [ha] at h
    exact assign_lowers (ht.known a type ha) b types ht _ _ h

theorem impose_lowers (horder : t.ontology.Orderly known) {d : Demand} (hd : d.Among known) :
    (t.impose d).Lowers t.ontology known := by
  cases d with
  | refuse fault =>
    intro types _ types' changed h
    cases h
  | typed e type => exact assign_lowers hd e
  | same v w => exact (share_lowers _ _).andThen horder (share_lowers _ _)
  | follow v object => exact hd.elim

theorem imposeAll_lowers (horder : t.ontology.Orderly known) {ds : List Demand}
    (hds : ∀ d ∈ ds, d.Among known) : (t.imposeAll ds).Lowers t.ontology known := by
  refine .all horder fun r hr => ?_
  obtain ⟨d, hd, rfl⟩ := List.mem_map.1 hr
  exact impose_lowers horder (hds d hd)

variable (horder : t.ontology.Orderly known) (hfixed : fixed.Tidy known)
include horder hfixed

/-- What an entity has above the fixed types does not conflict with what the fixed type keeps. -/
theorem assign_stays {e : Typeable} {type : Iri} (htype : type ∈ known)
    (hkeeps : fixed.Keeps t.ontology e type) : (t.assign e type).Stays t.ontology known fixed := by
  intro types ht habove
  unfold assign
  cases he : types.find? e with
  | none => exact ⟨_, rfl, habove.insert hkeeps⟩
  | some current =>
    obtain ⟨below, hbelow, hcurrent⟩ := habove e current he
    obtain ⟨_, hbelow', hcandidate⟩ := hkeeps
    cases hbelow.symm.trans hbelow'
    have hcomparable := horder.comparable _ (hfixed.known _ _ hbelow) _ (ht.known _ _ he) _ htype
      hcurrent hcandidate
    dsimp only
    cases hrefine : t.ontology.refine current type with
    | keep => exact ⟨_, rfl, habove⟩
    | replace => exact ⟨_, rfl, habove.insert ⟨below, hbelow, hcandidate⟩⟩
    | conflict => exact absurd hrefine hcomparable

theorem share_stays {a b : Typeable}
    (hab : ∀ type, fixed.find? a = some type → fixed.find? b = some type) :
    (t.share a (some b)).Stays t.ontology known fixed := by
  intro types ht habove
  unfold share
  cases ha : types.find? a with
  | none => exact Rule.idle_stays types ht habove
  | some type =>
    obtain ⟨below, hbelow, hkeep⟩ := habove a type ha
    exact assign_stays horder hfixed (ht.known a type ha) ⟨below, hab below hbelow,
      hkeep⟩ types ht habove

/-- A demand that the fixed types meet stays above them. -/
theorem impose_stays {d : Demand} (hd : d.Among known) (hmet : d.Met t.ontology fixed) :
    (t.impose d).Stays t.ontology known fixed := by
  cases d with
  | refuse fault => exact hmet.elim
  | typed e type => exact assign_stays horder hfixed hd hmet
  | follow v object => exact hd.elim
  | same v w =>
    have equal : ∀ {a b : Typeable},
        (∀ type, fixed.find? a = some type → fixed.Keeps t.ontology b type) →
        (∀ type, fixed.find? b = some type → fixed.Keeps t.ontology a type) →
        ∀ type, fixed.find? a = some type → fixed.find? b = some type := by
      intro a b hab hba type ha
      obtain ⟨type', hb, hkeep⟩ := hab type ha
      obtain ⟨_, ha', hkeep'⟩ := hba type' hb
      cases ha.symm.trans ha'
      rw [hb, horder.antisymm _ (hfixed.known _ _ ha) _ (hfixed.known _ _ hb) hkeep' hkeep]
    obtain ⟨hvw, hwv⟩ := hmet
    exact Rule.Stays.andThen (share_lowers _ _) (share_stays horder hfixed (equal hvw hwv))
      (share_stays horder hfixed (equal hwv hvw))

theorem imposeAll_stays {ds : List Demand} (hds : ∀ d ∈ ds, d.Among known)
    (hmet : ∀ d ∈ ds, d.Met t.ontology fixed) : (t.imposeAll ds).Stays t.ontology known fixed := by
  refine .all ?_ ?_
  · intro r hr
    obtain ⟨d, hd, rfl⟩ := List.mem_map.1 hr
    exact impose_lowers horder (hds d hd)
  · intro r hr
    obtain ⟨d, hd, rfl⟩ := List.mem_map.1 hr
    exact impose_stays horder hfixed (hds d hd) (hmet d hd)

end Typist

/-! ## Until nothing changes -/

namespace Pass
variable {o : Ontology} {known : List Iri}

theorem settle_lowers (horder : o.Orderly known) {r : Rule} (hr : r.Lowers o known) {rounds : Nat}
    {p p' : Progress} {changed : Bool} (ht : p.types.Tidy known)
    (h : settle r rounds p = .ok (p', changed)) : p'.types.Tidy known ∧
      p.types.Above o p'.types := by
  refine settle_keeps (fun types => types.Tidy known ∧ p.types.Above o types) ?_ ⟨ht, .refl _⟩ h
  rintro types types' changed ⟨htidy, habove⟩ hrun
  obtain ⟨htidy', hdown⟩ := hr types htidy _ _ hrun
  exact ⟨htidy', habove.trans horder ht htidy htidy' hdown⟩

/-- A rule that has settled changes nothing any more. -/
theorem settle_rests {r : Rule} (hr : r.Refines o) {rounds : Nat} {p p' : Progress} {changed : Bool}
    (h : settle r rounds p = .ok (p', changed)) (hout : p'.exhausted = false) :
    r p'.types = .ok (p'.types, false) := by
  induction rounds generalizing p changed with
  | zero =>
    cases h
    cases hout
  | succ rounds ih =>
    rcases settle_succ_ok h with ⟨_, h⟩ | ⟨_, middle, changed', _, hrest⟩
    · have hrun := ofRule_ok h
      rwa [← hr.unchanged hrun] at hrun
    · exact ih hrest

theorem settle_stays {r : Rule} (hlowers : r.Lowers o known) {fixed : TypeMap}
    (hr : r.Stays o known fixed) (rounds : Nat) {p : Progress} (ht : p.types.Tidy known)
    (habove : p.types.Above o fixed) :
    ∃ made, settle r rounds p = .ok made ∧ made.1.types.Above o fixed := by
  induction rounds generalizing p with
  | zero => exact ⟨_, rfl, habove⟩
  | succ rounds ih =>
    obtain ⟨⟨types, changed⟩, hrun, hnext⟩ := hr p.types ht habove
    have hstep : ofRule r p = .ok ({ p with types }, changed) := ofRule_eq_ok.2 ⟨hrun, rfl⟩
    cases changed with
    | false => exact ⟨({ p with types }, false), settle_of_still hstep rounds, hnext⟩
    | true =>
      obtain ⟨made, hmade, hlast⟩ :=
        ih (p := { p with types }) (hlowers p.types ht _ _ hrun).1 hnext
      exact ⟨(made.1, true), settle_of_moved hstep hmade, hlast⟩

/-- Where demands settle, they settle from the same types in any other order, above the types that
are found. -/
theorem settle_above {t : Typist} (horder : t.ontology.Orderly known) {ds ds' : List Demand}
    (hsub : ds' ⊆ ds) (hds : ∀ d ∈ ds, d.Among known) {rounds : Nat} {p p' : Progress}
    (ht : p.types.Tidy known) (ht' : p'.types.Tidy known) (hsame : p.types.Same p'.types)
    {made : Progress × Bool} (h : settle (t.imposeAll ds) rounds p = .ok made)
    (hout : made.1.exhausted = false) :
    ∃ made', settle (t.imposeAll ds') rounds p' = .ok made' ∧
      made'.1.types.Above t.ontology made.1.types := by
  have hlowers : ∀ {ds'' : List Demand}, ds'' ⊆ ds → (t.imposeAll ds'').Lowers t.ontology known :=
    fun hsub' => Typist.imposeAll_lowers horder fun d hd => hds d (hsub' hd)
  obtain ⟨hmade, habove⟩ := settle_lowers horder (hlowers (List.Subset.refl ds)) ht h
  have hmet := t.met_of_imposeAll (settle_rests (t.imposeAll_refines ds) h hout)
  have hstays := Typist.imposeAll_stays horder hmade (fun d hd => hds d (hsub hd))
    fun d hd => hmet d (hsub hd)
  have hstart : p'.types.Above t.ontology made.1.types :=
    fun e type he => habove e type ((hsame e).trans he)
  exact settle_stays (hlowers hsub) hstays rounds ht' hstart

end Pass

end OntoQuery
