import OntoQuery.Proofs.Listing

/-!
# Demands that bring nothing new

Suppose that the demands of a scope settle, and that an entity then has a type which keeps when a
candidate comes. Demanding the candidate of it as well should bring nothing new.

Once the entity has its type, the further demand does nothing at all, whatever the other types are:
each step does what it does without it (`Pass.Echoes`). Before that the candidate comes sooner than
the type would. It can reach only what is linked with the entity, by demands that pass types on
(`Demand.Linked`). If all of that settles at the same type, then at any time a linked entity has
what it has without the candidate, or it has that type already, or it has the candidate where it
would have nothing (`Ontology.Ahead`); so when the others have settled, nothing is ahead any more
(`Pass.settle_further`), and from then on each round does the same (`Typist.round_echoes`).
-/

namespace OntoQuery

/-! ## Types that stay -/

namespace Ontology
variable {defs : Definitions} {o : Ontology} (h : ofDefinitions defs = .ok o)
include h

theorem Refines.room_le {type next : Iri} (hr : o.Refines type next) :
    o.room next ≤ o.room type := by
  induction hr with
  | refl => exact Nat.le_refl _
  | tail _ hstep ih => exact (Nat.le_of_lt (room_lt_of_replace h hstep)).trans ih

/-- A type that has been replaced never comes back. -/
theorem Refines.antisymm {a b : Iri} (hab : o.Refines a b) (hba : o.Refines b a) : a = b := by
  cases hab.cases_head with
  | inl heq => exact heq
  | inr hstep =>
    obtain ⟨next, hreplace, hrest⟩ := hstep
    have hless := room_lt_of_replace h hreplace
    have hrest := Refines.room_le h hrest
    have hback := Refines.room_le h hba
    omega

end Ontology

theorem TypeMap.find?_between {defs : Definitions} {o : Ontology}
    (h : Ontology.ofDefinitions defs = .ok o) {types middle last : TypeMap}
    (hfirst : types.Refines o middle) (hlast : middle.Refines o last) {e : Typeable} {type : Iri}
    (he : types.find? e = some type) (he' : last.find? e = some type) :
    middle.find? e = some type := by
  obtain ⟨found, hfound, hdown⟩ := hfirst e type he
  obtain ⟨_, hend, hdown'⟩ := hlast e found hfound
  cases he'.symm.trans hend
  rw [hfound, hdown.antisymm h hdown']

/-- Where the entity has the type before and after, the second rule does what the first does. -/
def Rule.Echoes (e : Typeable) (type : Iri) (r r' : Rule) : Prop :=
  ∀ types made changed, r types = .ok (made, changed) → types.find? e = some type →
    made.find? e = some type → r' types = .ok (made, changed)

/-- Where the entity has the type before and after, the second step does what the first does. -/
def Pass.Echoes (e : Typeable) (type : Iri) (a a' : Pass) : Prop :=
  ∀ p made changed, a p = .ok (made, changed) → p.types.find? e = some type →
    made.types.find? e = some type → a' p = .ok (made, changed)

section
variable {defs : Definitions} {o : Ontology} (h : Ontology.ofDefinitions defs = .ok o)
  {e : Typeable} {type : Iri}

namespace Pass

theorem ofRule_echoes {r r' : Rule} (hecho : r.Echoes e type r') :
    (ofRule r).Echoes e type (ofRule r') := by
  intro p made changed hrun he he'
  obtain ⟨hrun, hflag⟩ := ofRule_eq_ok.1 hrun
  exact ofRule_eq_ok.2 ⟨hecho _ _ _ hrun he he', hflag⟩

include h

theorem Echoes.andThen {a a' b : Pass} (ha : a.Faithful o) (hb : b.Faithful o)
    (hecho : a.Echoes e type a') : (a.andThen b).Echoes e type (a'.andThen b) := by
  intro p made changed hrun he he'
  obtain ⟨middle, first, second, hfirst, hsecond, rfl⟩ := andThen_ok hrun
  have hmiddle := TypeMap.find?_between h (ha.refines hfirst) (hb.refines hsecond) he he'
  exact andThen_eq_ok (hecho p middle first hfirst he hmiddle) hsecond

theorem settle_echoes {r r' : Rule} (hr : r.Refines o) (hecho : r.Echoes e type r') (rounds : Nat) :
    (settle r rounds).Echoes e type (settle r' rounds) := by
  induction rounds with
  | zero => exact fun _ _ _ hrun _ _ => hrun
  | succ rounds ih =>
    intro p made changed hrun he he'
    cases settle_succ_ok hrun with
    | inl hstill =>
      obtain ⟨rfl, hstill⟩ := hstill
      exact settle_of_still (ofRule_echoes hecho p made false hstill he he') rounds
    | inr hmoved =>
      obtain ⟨rfl, middle, changed', hfirst, hrest⟩ := hmoved
      have hmiddle := TypeMap.find?_between h ((ofRule_faithful hr).refines hfirst)
        ((settle_faithful hr rounds).refines hrest) he he'
      exact settle_of_moved (ofRule_echoes hecho p middle true hfirst he hmiddle)
        (ih middle made changed' hrest hmiddle he')

end Pass

end

/-! ## One more demand -/

namespace Typist
variable {t : Typist} {before after : List Demand} {e : Typeable} {type candidate : Iri}

/-- A type that keeps stays where it is. -/
theorem assign_of_keep {types : TypeMap} (he : types.find? e = some type)
    (hkeep : t.ontology.refine type candidate = .keep) :
    t.assign e candidate types = .ok (types, false) := by
  rw [assign, he]
  dsimp only
  rw [hkeep]

/-- A type that an entity has and that keeps can be given to it at any point. -/
theorem imposeAll_echoes {defs : Definitions} (h : Ontology.ofDefinitions defs = .ok t.ontology)
    (hkeep : t.ontology.refine type candidate = .keep) :
    (t.imposeAll (before ++ after)).Echoes e type
      (t.imposeAll (before ++ .typed e candidate :: after)) := by
  intro types made changed hrun he he'
  rw [imposeAll_append] at hrun ⊢
  obtain ⟨middle, first, second, hfirst, hsecond, rfl⟩ := Rule.andThen_ok hrun
  have hmiddle := TypeMap.find?_between h ((t.imposeAll_refines before).refines hfirst)
    ((t.imposeAll_refines after).refines hsecond) he he'
  exact Rule.andThen_eq_ok hfirst (Rule.andThen_eq_ok (assign_of_keep hmiddle hkeep) hsecond)

/-- A type that an entity has when the candidate comes, and that keeps, makes no difference. -/
theorem imposeAll_of_early (hkeep : t.ontology.refine type candidate = .keep)
    {types early made : TypeMap} {first changed : Bool}
    (hearly : t.imposeAll before types = .ok (early, first)) (he : early.find? e = some type)
    (hrun : t.imposeAll (before ++ after) types = .ok (made, changed)) :
    t.imposeAll (before ++ .typed e candidate :: after) types = .ok (made, changed) ∧
      early.Refines t.ontology made := by
  rw [imposeAll_append] at hrun ⊢
  obtain ⟨_, _, _, hbefore, hafter, rfl⟩ := Rule.andThen_ok hrun
  cases hearly.symm.trans hbefore
  exact ⟨Rule.andThen_eq_ok hearly (Rule.andThen_eq_ok (assign_of_keep he hkeep) hafter),
    (t.imposeAll_refines after).refines hafter⟩

end Typist

/-! ## Types that come sooner -/

namespace Ontology

/-- What an entity has after a candidate has come to it, or none has: the one of the two that
stays. Two that conflict come to nothing. -/
def given (o : Ontology) : (current candidate : Option Iri) → Option (Option Iri)
  | current, none => some current
  | none, some candidate => some (some candidate)
  | some current, some candidate =>
    match o.refine current candidate with
    | .keep => some (some current)
    | .replace => some (some candidate)
    | .conflict => none

/-- A type that may come to what settles at `type` while the candidate is given sooner: one that
`type` keeps against. If the candidate is another name of the type, there are only these two. -/
def Fits (o : Ontology) (type candidate next : Iri) : Prop :=
  o.refine type next = .keep ∧ (candidate = type ∨ next = type ∨ next = candidate)

/-- What an entity has, beside what it has with the candidate given sooner: the same, the type at
which it settles, or the candidate where it would have nothing yet. -/
inductive Ahead (o : Ontology) (type candidate : Iri) : Option Iri → Option Iri → Prop where
  | level {x : Option Iri} : (∀ next ∈ x, o.Fits type candidate next) → Ahead o type candidate x x
  | settled {x : Option Iri} :
    (∀ next ∈ x, o.Fits type candidate next) → Ahead o type candidate x (some type)
  | started : Ahead o type candidate none (some candidate)

variable {o : Ontology} {type candidate : Iri}

theorem given_none (x : Option Iri) : o.given x none = some x := by
  cases x <;> rfl

theorem given_of_keep {current next : Iri} (h : o.refine current next = .keep) :
    o.given (some current) (some next) = some (some current) := by
  simp [given, h]

theorem given_of_replace {current next : Iri} (h : o.refine current next = .replace) :
    o.given (some current) (some next) = some (some next) := by
  simp [given, h]

/-- What comes of two is one of them. -/
theorem given_cases {x y z : Option Iri} (h : o.given x y = some z) : z = x ∨ z = y := by
  cases y with
  | none => exact .inl (Option.some.inj ((given_none x).symm.trans h)).symm
  | some candidate =>
    cases x with
    | none => exact .inr (Option.some.inj h).symm
    | some current =>
      simp only [given] at h
      split at h
      · exact .inl (Option.some.inj h).symm
      · exact .inr (Option.some.inj h).symm
      · cases h

namespace Ahead

theorem fits {x x' : Option Iri} (h : o.Ahead type candidate x x') :
    ∀ next ∈ x, o.Fits type candidate next := by
  cases h with
  | level hfits | settled hfits => exact hfits
  | started => simp

theorem isSome {x x' : Option Iri} (h : o.Ahead type candidate x x') {next : Iri}
    (hx : x = some next) : ∃ next', x' = some next' := by
  cases h with
  | level => exact ⟨next, hx⟩
  | settled => exact ⟨type, rfl⟩
  | started => cases hx

/-- What has settled is not ahead any more. -/
theorem eq_of_settled {x' : Option Iri} (h : o.Ahead type candidate (some type) x') :
    x' = some type := by
  cases h with
  | level | settled => rfl

/-- Where the candidate is the type, what is ahead has settled. -/
theorem eq_or_settled {x x' : Option Iri} (h : o.Ahead type type x x') :
    x' = x ∨ x' = some type := by
  cases h with
  | level => exact .inl rfl
  | settled | started => exact .inr rfl

section
variable (hkeep : o.refine type candidate = .keep)
  (hback : candidate = type ∨ o.refine candidate type = .replace)
include hkeep hback

theorem given_type {x x' : Option Iri} (h : o.Ahead type candidate x x')
    (hx : ∀ current ∈ x, current = type ∨ o.refine current type = .replace) :
    o.given x' (some type) = some (some type) := by
  have replaced : ∀ current, current = type ∨ o.refine current type = .replace →
      o.given (some current) (some type) = some (some type) := by
    rintro current (rfl | hreplace)
    · exact given_of_keep (o.refine_self _)
    · exact given_of_replace hreplace
  cases h with
  | level =>
    cases x with
    | none => rfl
    | some current => exact replaced current (hx current rfl)
  | settled => exact given_of_keep (o.refine_self type)
  | started => exact replaced candidate hback

/-- **What is ahead stays ahead when something comes to it that is ahead as well**, if what it would
have can be replaced by the type at which it settles. -/
theorem given {x x' y y' z : Option Iri} (h : o.Ahead type candidate x x')
    (h' : o.Ahead type candidate y y')
    (hx : ∀ current ∈ x, current = type ∨ o.refine current type = .replace)
    (hz : o.given x y = some z) :
    ∃ z', o.given x' y' = some z' ∧ o.Ahead type candidate z z' := by
  have hfits : ∀ next ∈ z, o.Fits type candidate next := by
    rcases given_cases hz with rfl | rfl
    · exact h.fits
    · exact h'.fits
  cases h' with
  | settled => exact ⟨_, h.given_type hkeep hback hx, .settled hfits⟩
  | level hy =>
    cases h with
    | level => exact ⟨z, hz, .level hfits⟩
    | settled =>
      cases y with
      | none => exact ⟨_, rfl, .settled hfits⟩
      | some next => exact ⟨_, given_of_keep (hy next rfl).1, .settled hfits⟩
    | started =>
      cases y with
      | none =>
        cases hz
        exact ⟨_, rfl, .started⟩
      | some next =>
        cases hz
        obtain ⟨hnext, rfl | rfl | rfl⟩ := hy next rfl
        · exact ⟨_, given_of_keep hnext, .settled hfits⟩
        · exact ⟨_, Ahead.started.given_type hkeep hback (by simp), .settled hfits⟩
        · exact ⟨_, given_of_keep (o.refine_self _), .level hfits⟩
  | started =>
    cases (given_none x).symm.trans hz
    cases h with
    | settled => exact ⟨_, given_of_keep hkeep, .settled hfits⟩
    | started => exact ⟨_, given_of_keep (o.refine_self _), .started⟩
    | level hxfits =>
      cases x with
      | none => exact ⟨_, rfl, .started⟩
      | some current =>
        obtain ⟨_, rfl | rfl | rfl⟩ := hxfits current rfl
        · exact ⟨_, (Ahead.level hxfits).given_type hkeep hback hx, .settled hfits⟩
        · exact ⟨_, given_of_keep hkeep, .level hfits⟩
        · exact ⟨_, given_of_keep (o.refine_self _), .level hfits⟩

end

end Ahead

end Ontology

/-! ## Linked entities -/

/-- The entities between which a demand passes types. -/
def Demand.link? : Demand → Option (Typeable × Typeable)
  | .same v w => some (.var v, .var w)
  | .follow v object => (Typeable.ofEntity? object).map fun e => (.var v, e)
  | _ => none

/-- Types can pass from one entity to the other, through any number of demands. -/
def Demand.Linked (ds : List Demand) : Typeable → Typeable → Prop :=
  Relation.EqvGen fun a b => ∃ d ∈ ds, d.link? = some (a, b)

/-- All that is linked with the entity settles at the type. The candidate is the type itself; or it
is another name of it, then nothing else comes to the linked entities, and no property variable is
among them. The literals that a linked property variable has for objects are of datatypes that the
type keeps against. -/
structure Typist.SettlesAlike (t : Typist) (ds : List Demand) (rested : TypeMap) (e : Typeable)
    (type candidate : Iri) : Prop where
  settled : ∀ e', Demand.Linked ds e e' → rested.find? e' = some type
  proposals : ∀ e' next, .typed e' next ∈ ds → Demand.Linked ds e e' →
    candidate = type ∨ next = type ∨ next = candidate
  follows : ∀ v object, .follow v object ∈ ds → Demand.Linked ds e (.var v) → candidate = type ∧
    ∀ l, object = .lit l → t.ontology.refine type l.datatype = .keep

/-- Demanding the candidate of the entity between the other demands does not disturb where they come
to rest. The entity has its type when the candidate first comes to it, or all that is linked with it
settles at this type. -/
inductive Typist.Undisturbed (t : Typist) (before after : List Demand) (rested : TypeMap)
    (e : Typeable) (type candidate : Iri) : Prop where
  | early {types : TypeMap} {changed : Bool} : t.imposeAll before .empty = .ok (types, changed) →
    types.find? e = some type → Undisturbed t before after rested e type candidate
  | alike : t.SettlesAlike (before ++ after) rested e type candidate →
    Undisturbed t before after rested e type candidate

/-- Nothing but the type is demanded of the entity, and no types pass to it or from it. -/
def Demand.Spares (e : Typeable) (type : Iri) : Demand → Prop
  | .refuse _ => True
  | .typed e' next => e' = e → next = type
  | .same v w => .var v ≠ e ∧ .var w ≠ e
  | .follow v object => .var v ≠ e ∧ Typeable.ofEntity? object ≠ some e

instance (e : Typeable) (type : Iri) : (d : Demand) → Decidable (d.Spares e type)
  | .refuse _ => inferInstanceAs (Decidable True)
  | .typed _ _ => inferInstanceAs (Decidable (_ = _ → _ = _))
  | .same _ _ => inferInstanceAs (Decidable (_ ≠ _ ∧ _ ≠ _))
  | .follow _ _ => inferInstanceAs (Decidable (_ ≠ _ ∧ _ ≠ _))

theorem Demand.Linked.eq_of_spares {ds : List Demand} {e : Typeable} {type : Iri}
    (h : ∀ d ∈ ds, d.Spares e type) {e' : Typeable} (hlinked : Demand.Linked ds e e') : e' = e := by
  have alone : ∀ a b, Demand.Linked ds a b → (a = e ↔ b = e) := by
    intro a b hab
    induction hab with
    | rel a b hlink =>
      obtain ⟨d, hd, hlink⟩ := hlink
      have hspares := h d hd
      cases d with
      | refuse fault => cases hlink
      | typed e' next => cases hlink
      | same v w =>
        cases hlink
        exact iff_of_false hspares.1 hspares.2
      | follow v object =>
        obtain ⟨b, hb, hpair⟩ := Option.map_eq_some_iff.1 hlink
        cases hpair
        refine iff_of_false hspares.1 ?_
        rintro rfl
        exact hspares.2 hb
    | refl a => exact .rfl
    | symm a b _ ih => exact ih.symm
    | trans a b c _ _ ih ih' => exact ih.trans ih'
  exact (alone e e' hlinked).1 rfl

/-- An entity of which nothing else is demanded settles by itself. -/
theorem Typist.settlesAlike_of_spares {t : Typist} {ds : List Demand} {rested : TypeMap}
    {e : Typeable} {type : Iri} (h : ∀ d ∈ ds, d.Spares e type) (he : rested.find? e = some type)
    (candidate : Iri) : t.SettlesAlike ds rested e type candidate where
  settled e' hlinked := by rw [hlinked.eq_of_spares h, he]
  proposals e' next hd hlinked := .inr (.inl (h _ hd (hlinked.eq_of_spares h)))
  follows v object hd hlinked := absurd (hlinked.eq_of_spares h) (h _ hd).1

/-! ## The candidate comes sooner -/

/-- What is used of linked entities that settle at a type, with a candidate that is given sooner. -/
structure Typist.Sooner (t : Typist) (ds : List Demand) (linked : Typeable → Prop) (fixed : TypeMap)
    (type candidate : Iri) : Prop where
  keep : t.ontology.refine type candidate = .keep
  back : candidate = type ∨ t.ontology.refine candidate type = .replace
  closed : ∀ d ∈ ds, ∀ a b, d.link? = some (a, b) → (linked a ↔ linked b)
  alike : ∀ e, linked e → fixed.find? e = some type
  fits : ∀ e next, .typed e next ∈ ds → linked e → t.ontology.Fits type candidate next
  follows : ∀ v object, .follow v object ∈ ds → linked (.var v) → candidate = type ∧
    ∀ l, object = .lit l → t.ontology.refine type l.datatype = .keep

theorem Typist.SettlesAlike.sooner {t : Typist} {ds : List Demand} {rested : TypeMap} {e : Typeable}
    {type candidate : Iri} (ha : t.SettlesAlike ds rested e type candidate)
    (hmet : ∀ d ∈ ds, d.Met t.ontology rested) (hkeep : t.ontology.refine type candidate = .keep)
    (hback : candidate = type ∨ t.ontology.refine candidate type = .replace) :
    t.Sooner ds (Demand.Linked ds e) rested type candidate where
  keep := hkeep
  back := hback
  closed d hd a b hab := by
    have hstep : Demand.Linked ds a b := .rel _ _ ⟨d, hd, hab⟩
    exact ⟨fun ha => .trans _ _ _ ha hstep, fun hb => .trans _ _ _ hb (.symm _ _ hstep)⟩
  alike := ha.settled
  fits e' next hd he' := by
    obtain ⟨found, hfound, hkeeps⟩ := hmet _ hd
    cases (ha.settled e' he').symm.trans hfound
    exact ⟨hkeeps, ha.proposals e' next hd he'⟩
  follows := ha.follows

/-- The linked entities are ahead, and the others have the same types. -/
def TypeMap.Ahead (o : Ontology) (linked : Typeable → Prop) (type candidate : Iri)
    (types types' : TypeMap) : Prop :=
  ∀ e, (linked e → o.Ahead type candidate (types.find? e) (types'.find? e)) ∧
    (¬ linked e → types'.find? e = types.find? e)

/-- Nothing is ahead of types at which the linked entities have settled. -/
theorem TypeMap.Ahead.same {o : Ontology} {linked : Typeable → Prop} {type candidate : Iri}
    {types types' : TypeMap} (h : types.Ahead o linked type candidate types')
    (hsettled : ∀ e, linked e → types.find? e = some type) : types.Same types' := by
  intro e
  have hboth := h e
  by_cases he : linked e
  · rw [hsettled e he] at hboth ⊢
    exact (hboth.1 he).eq_of_settled.symm
  · exact (hboth.2 he).symm

/-- From types that are ahead the second rule comes to types that are ahead, where the first comes
to types that are still to settle. -/
def Rule.Ahead (o : Ontology) (linked : Typeable → Prop) (fixed : TypeMap) (type candidate : Iri)
    (r r' : Rule) : Prop :=
  ∀ types types' made changed, types.Ahead o linked type candidate types' →
    r types = .ok (made, changed) → made.Refines o fixed →
    ∃ made' changed', r' types' = .ok (made', changed') ∧ made.Ahead o linked type candidate made'

theorem Rule.Ahead.andThen {o : Ontology} {linked : Typeable → Prop} {fixed : TypeMap}
    {type candidate : Iri} {a a' b b' : Rule} (hb : b.Refines o)
    (h : a.Ahead o linked fixed type candidate a') (h' : b.Ahead o linked fixed type candidate b') :
    (a.andThen b).Ahead o linked fixed type candidate (a'.andThen b') := by
  intro types types' made changed hahead hrun hmade
  obtain ⟨middle, _, _, hfirst, hsecond, _⟩ := andThen_ok hrun
  obtain ⟨middle', _, hfirst', hmiddle⟩ :=
    h types types' middle _ hahead hfirst ((hb.refines hsecond).trans hmade)
  obtain ⟨made', _, hsecond', hlast⟩ := h' middle middle' made _ hmiddle hsecond hmade
  exact ⟨made', _, andThen_eq_ok hfirst' hsecond', hlast⟩

namespace Typist
variable {t : Typist}

/-- A type is given by putting in what comes of it. -/
theorem assign?_of_given {types : TypeMap} {e : Typeable} {y z : Option Iri}
    (h : t.ontology.given (types.find? e) y = some z) :
    ∃ made changed, t.assign? (some e) y types = .ok (made, changed) ∧
      ∀ e', made.find? e' = if e' = e then z else types.find? e' := by
  have unchanged : types.find? e = z →
      ∀ e', types.find? e' = if e' = e then z else types.find? e' := by
    intro hz e'
    split
    · rename_i heq
      rw [heq, hz]
    · rfl
  cases y with
  | none =>
    exact ⟨types, false, rfl, unchanged (Option.some.inj ((Ontology.given_none _).symm.trans h))⟩
  | some candidate =>
    change ∃ made changed, t.assign e candidate types = _ ∧ _
    unfold assign
    cases he : types.find? e with
    | none =>
      rw [he] at h
      cases h
      exact ⟨_, _, rfl, fun e' => OrderedMap.find?_insert _ _ _ _⟩
    | some current =>
      rw [he] at h unchanged
      dsimp only [Ontology.given] at h ⊢
      cases hr : t.ontology.refine current candidate with
      | keep =>
        rw [hr] at h
        exact ⟨_, _, rfl, unchanged (Option.some.inj h)⟩
      | replace =>
        rw [hr] at h
        cases h
        exact ⟨_, _, rfl, fun e' => OrderedMap.find?_insert _ _ _ _⟩
      | conflict =>
        rw [hr] at h
        cases h

theorem given_of_assign? {types made : TypeMap} {e : Typeable} {y : Option Iri} {changed : Bool}
    (h : t.assign? (some e) y types = .ok (made, changed)) :
    ∃ z, t.ontology.given (types.find? e) y = some z ∧
      ∀ e', made.find? e' = if e' = e then z else types.find? e' := by
  cases hz : t.ontology.given (types.find? e) y with
  | some z =>
    obtain ⟨made', _, hrun, hfind⟩ := assign?_of_given hz
    cases h.symm.trans hrun
    exact ⟨z, rfl, hfind⟩
  | none =>
    cases y with
    | none => cases (Ontology.given_none _).symm.trans hz
    | some candidate =>
      change t.assign e candidate types = _ at h
      unfold assign at h
      cases he : types.find? e with
      | none =>
        rw [he] at hz
        cases hz
      | some current =>
        rw [he] at hz h
        dsimp only [Ontology.given] at hz h
        cases hr : t.ontology.refine current candidate <;> rw [hr] at hz h <;> cases hz
        cases h

/-- A property variable that has settled sooner need not take its first type. -/
theorem first_ahead {linked : Typeable → Prop} {type candidate : Iri} {types types' made : TypeMap}
    {v : Variable} {y : Option Iri} {changed : Bool}
    (hahead : types.Ahead t.ontology linked type candidate types') (hlinked : linked (.var v))
    (hv' : types'.find? (.var v) = some type) (hv : types.find? (.var v) = none)
    (hfits : ∀ next ∈ y, t.ontology.Fits type candidate next)
    (hrun : t.assign? (some (.var v)) y types = .ok (made, changed)) :
    made.Ahead t.ontology linked type candidate types' := by
  obtain ⟨z, hz, hfind⟩ := given_of_assign? hrun
  obtain rfl : z = y := by
    rcases Ontology.given_cases hz with rfl | rfl
    · rw [hv] at hz ⊢
      cases y with
      | none => rfl
      | some next => cases hz
    · rfl
  intro e
  rw [hfind]
  split
  · rename_i heq
    subst heq
    rw [hv']
    exact ⟨fun _ => .settled hfits, fun hnot => absurd hlinked hnot⟩
  · exact hahead e

section
variable {defs : Definitions} (h : Ontology.ofDefinitions defs = .ok t.ontology) {ds : List Demand}
  {linked : Typeable → Prop} {fixed : TypeMap} {type candidate : Iri}
  (hs : t.Sooner ds linked fixed type candidate)
include h hs

/-- What is still to settle at the type can be replaced by it. -/
theorem Sooner.replaceable {types : TypeMap} (hrest : types.Refines t.ontology fixed) {e : Typeable}
    (he : linked e) {x' : Option Iri} (hx : t.ontology.Ahead type candidate (types.find? e) x') :
    ∀ current ∈ types.find? e, current = type ∨ t.ontology.refine current type = .replace := by
  intro current hcurrent
  obtain ⟨last, hlast, hdown⟩ := hrest e current hcurrent
  cases (hs.alike e he).symm.trans hlast
  refine (Ontology.canFollow_of_refines h hdown).imp_right fun hfollow => ?_
  exact Ontology.replace_of_canFollow h hfollow (hx.fits current hcurrent).1

/-- Giving what is ahead keeps the types ahead. -/
theorem assign?_ahead {types types' made : TypeMap} {e : Typeable} {y y' : Option Iri}
    {changed : Bool} (hahead : types.Ahead t.ontology linked type candidate types')
    (hlinked : linked e → t.ontology.Ahead type candidate y y') (hother : ¬ linked e → y' = y)
    (hrun : t.assign? (some e) y types = .ok (made, changed))
    (hmade : made.Refines t.ontology fixed) :
    ∃ made' changed', t.assign? (some e) y' types' = .ok (made', changed') ∧
      made.Ahead t.ontology linked type candidate made' := by
  obtain ⟨z, hz, hfind⟩ := given_of_assign? hrun
  have hrest := ((t.assign?_refines (some e) y).refines hrun).trans hmade
  obtain ⟨z', hz', hnew⟩ : ∃ z', t.ontology.given (types'.find? e) y' = some z' ∧
      (linked e → t.ontology.Ahead type candidate z z') ∧ (¬ linked e → z' = z) := by
    by_cases he : linked e
    · have hx := (hahead e).1 he
      obtain ⟨z', hz', hnew⟩ :=
        hx.given hs.keep hs.back (hlinked he) (hs.replaceable h hrest he hx) hz
      exact ⟨z', hz', fun _ => hnew, fun hnot => absurd he hnot⟩
    · refine ⟨z, ?_, fun hyes => absurd hyes he, fun _ => rfl⟩
      rw [(hahead e).2 he, hother he]
      exact hz
  obtain ⟨made', changed', hrun', hfind'⟩ := assign?_of_given hz'
  refine ⟨made', changed', hrun', fun e' => ?_⟩
  rw [hfind, hfind']
  split
  · rename_i heq
    subst heq
    exact hnew
  · exact hahead e'

theorem share_ahead {a b : Typeable} (hab : linked a ↔ linked b) :
    (t.share a (some b)).Ahead t.ontology linked fixed type candidate (t.share a (some b)) := by
  intro types types' made changed hahead hrun hmade
  refine assign?_ahead h hs hahead (fun hb => ?_) (fun hb => ?_) hrun hmade
  · exact (hahead a).1 (hab.2 hb)
  · exact (hahead a).2 fun ha => hb (hab.1 ha)

/-- A property variable that has settled sooner passes its type on where it would have taken one. -/
theorem passes_ahead {types types' made : TypeMap} {v : Variable} {e : Typeable} {changed : Bool}
    (hahead : types.Ahead t.ontology linked type candidate types') (hlinked : linked (.var v))
    (hv' : types'.find? (.var v) = some type) (hv : types.find? (.var v) = none) (he : linked e)
    (hrun : t.share e (some (.var v)) types = .ok (made, changed))
    (hmade : made.Refines t.ontology fixed) :
    ∃ made' changed', t.assign? (some e) (some type) types' = .ok (made', changed') ∧
      made.Ahead t.ontology linked type candidate made' := by
  have hfirst := first_ahead hahead hlinked hv' hv ((hahead e).1 he).fits hrun
  have hidle : t.assign? (some e) none made = .ok (made, false) := rfl
  exact assign?_ahead h hs hfirst (fun _ => .settled (by simp)) (absurd he) hidle hmade

/-- A property variable that gets its type sooner stays ahead, and so does its object. -/
theorem propertyVariable_ahead {v : Variable} {object : Entity} (hd : .follow v object ∈ ds) :
    (t.propertyVariable v object).Ahead t.ontology linked fixed type candidate
      (t.propertyVariable v object) := by
  intro types types' made changed hahead hrun hmade
  have hpair : ∀ e, Typeable.ofEntity? object = some e → (linked (.var v) ↔ linked e) := by
    intro e he
    exact hs.closed _ hd _ _ (by simp [Demand.link?, he])
  have hliteral : ∀ l, object = .lit l → linked (.var v) →
      ∀ next ∈ some l.datatype, t.ontology.Fits type candidate next := by
    rintro l hl hlinked _ ⟨⟩
    obtain ⟨hsame, hkeep⟩ := hs.follows v object hd hlinked
    exact ⟨hkeep l hl, .inl hsame⟩
  unfold propertyVariable at hrun ⊢
  cases hv : types.find? (.var v) with
  | some current =>
    rw [hv] at hrun
    obtain ⟨current', hv'⟩ : ∃ current', types'.find? (.var v) = some current' := by
      by_cases hlinked : linked (.var v)
      · exact ((hahead _).1 hlinked).isSome hv
      · exact ⟨current, ((hahead _).2 hlinked).trans hv⟩
    rw [hv']
    dsimp only at hrun ⊢
    cases he : Typeable.ofEntity? object with
    | none =>
      rw [he] at hrun
      cases hrun
      exact ⟨types', false, rfl, hahead⟩
    | some e =>
      rw [he] at hrun
      refine assign?_ahead h hs hahead (fun hlinked => ?_) (fun hlinked => ?_) hrun hmade
      · have hboth := (hahead (.var v)).1 ((hpair e he).2 hlinked)
        rwa [hv, hv'] at hboth
      · have hboth := (hahead (.var v)).2 fun hvar => hlinked ((hpair e he).1 hvar)
        rwa [hv, hv'] at hboth
  | none =>
    rw [hv] at hrun
    cases hv' : types'.find? (.var v) with
    | none =>
      -- Neither has a type, so both take that of the object.
      cases object with
      | lit l => exact assign?_ahead h hs hahead (.level ∘ hliteral l rfl) (fun _ => rfl) hrun hmade
      | var w =>
        exact share_ahead h hs (hpair _ rfl).symm types types' made changed hahead hrun hmade
      | iri ref =>
        exact share_ahead h hs (hpair _ rfl).symm types types' made changed hahead hrun hmade
    | some found =>
      have hlinked : linked (.var v) := by
        by_contra hnot
        rw [(hahead _).2 hnot, hv] at hv'
        cases hv'
      obtain ⟨rfl, _⟩ := hs.follows v object hd hlinked
      obtain rfl : found = candidate := by
        have hboth := (hahead _).1 hlinked
        rw [hv, hv'] at hboth
        simpa using hboth.eq_or_settled
      cases object with
      | lit l =>
        exact ⟨types', false, rfl, first_ahead hahead hlinked hv' hv (hliteral l rfl hlinked) hrun⟩
      | var w =>
        exact passes_ahead h hs hahead hlinked hv' hv ((hpair _ rfl).1 hlinked) hrun hmade
      | iri ref =>
        exact passes_ahead h hs hahead hlinked hv' hv ((hpair _ rfl).1 hlinked) hrun hmade

theorem impose_ahead {d : Demand} (hd : d ∈ ds) :
    (t.impose d).Ahead t.ontology linked fixed type candidate (t.impose d) := by
  cases d with
  | refuse fault =>
    intro _ _ _ _ _ hrun
    cases hrun
  | typed e next =>
    intro types types' made changed hahead hrun hmade
    change t.assign? (some e) (some next) types = _ at hrun
    refine assign?_ahead h hs hahead (fun he => .level ?_) (fun _ => rfl) hrun hmade
    rintro _ ⟨⟩
    exact hs.fits e next hd he
  | same v w =>
    have hlinks := hs.closed _ hd _ _ rfl
    exact .andThen (t.share_refines _ _) (share_ahead h hs hlinks) (share_ahead h hs hlinks.symm)
  | follow v object => exact propertyVariable_ahead h hs hd

theorem imposeAll_ahead {some_ : List Demand} (hsub : some_ ⊆ ds) :
    (t.imposeAll some_).Ahead t.ontology linked fixed type candidate (t.imposeAll some_) := by
  induction some_ with
  | nil =>
    intro types types' made changed hahead hrun _
    cases hrun
    exact ⟨types', false, rfl, hahead⟩
  | cons d rest ih =>
    rw [List.cons_subset] at hsub
    exact .andThen (t.imposeAll_refines rest) (impose_ahead h hs hsub.1) (ih hsub.2)

end

/-- Demanding the candidate of a linked entity only brings the types ahead. -/
theorem imposeAll_further_ahead {defs : Definitions}
    (h : Ontology.ofDefinitions defs = .ok t.ontology) {before after : List Demand}
    {linked : Typeable → Prop} {fixed : TypeMap} {type candidate : Iri}
    (hs : t.Sooner (before ++ after) linked fixed type candidate) {e : Typeable} (he : linked e) :
    (t.imposeAll (before ++ after)).Ahead t.ontology linked fixed type candidate
      (t.imposeAll (before ++ .typed e candidate :: after)) := by
  rw [imposeAll_append, imposeAll_append, ← Rule.idle_andThen (t.imposeAll after)]
  refine .andThen (Rule.idle_refines.andThen (t.imposeAll_refines after))
    (imposeAll_ahead h hs (List.subset_append_left _ _)) ?_
  refine .andThen (t.imposeAll_refines after) ?_
    (imposeAll_ahead h hs (List.subset_append_right _ _))
  intro types types' made changed hahead hrun hmade
  cases hrun
  have hidle : t.assign? (some e) none types = .ok (types, false) := rfl
  exact assign?_ahead h hs hahead (fun _ => .started) (absurd he) hidle hmade

end Typist

/-- A rule keeps that each entity is listed once. -/
theorem Rule.Extensional.nodup {r : Rule} (hr : r.Extensional) {types made : TypeMap}
    {changed : Bool} (ht : types.keys.Nodup)
    (hrun : r types = .ok (made, changed)) : made.keys.Nodup := by
  have hself := hr types types ⟨ht, ht, fun _ => rfl⟩
  rw [hrun] at hself
  cases hself with
  | ok hmade => exact hmade.1.nodup

/-- A rule that rests at some types rests at the same types listed in another order. -/
theorem Rule.Extensional.rests {o : Ontology} {r : Rule} (hr : r.Extensional)
    (hrefines : r.Refines o) {types types' : TypeMap} (hsame : types.Reordered types')
    (hrest : r types = .ok (types, false)) : r types' = .ok (types', false) := by
  have hrun := hr types types' hsame
  rw [hrest] at hrun
  cases hrun' : r types' with
  | error fault =>
    rw [hrun'] at hrun
    cases hrun
  | ok made =>
    obtain ⟨made, changed⟩ := made
    rw [hrun'] at hrun
    cases hrun with
    | ok hmade =>
      obtain rfl : false = changed := hmade.2
      rw [hrefines.unchanged hrun']

namespace Pass

/-- A step that gives an entity its first type tells that it changed something. -/
theorem Faithful.moved {o : Ontology} {a : Pass} (ha : a.Faithful o) {p made : Progress}
    {changed : Bool} (hrun : a p = .ok (made, changed)) {e : Typeable} (he : p.types.find? e = none)
    {type : Iri} (he' : made.types.find? e = some type) : changed = true := by
  by_contra hnot
  obtain rfl : changed = false := by simpa using hnot
  rw [ha.unchanged hrun, he] at he'
  cases he'

variable {t : Typist} {defs : Definitions} (h : Ontology.ofDefinitions defs = .ok t.ontology)
  {before after : List Demand} {e : Typeable} {type candidate : Iri}
include h

/-- **Demands settle at the same types with the candidate given sooner**, and in the same rounds:
when they have settled, nothing is ahead any more. -/
theorem settle_ahead {linked : Typeable → Prop} {fixed : TypeMap}
    (hs : t.Sooner (before ++ after) linked fixed type candidate) (he : linked e)
    (hfixed : fixed.keys.Nodup) {rounds : Nat} {p p' made : Progress} {changed : Bool}
    (hrun : settle (t.imposeAll (before ++ after)) rounds p = .ok (made, changed))
    (hmade : made.types = fixed) (hcalm : made.exhausted = false)
    (hahead : p.types.Ahead t.ontology linked type candidate p'.types) (hp' : p'.types.keys.Nodup)
    (hcalm' : p'.exhausted = false) :
    ∃ made' changed', settle (t.imposeAll (before ++ .typed e candidate :: after)) rounds p' =
      .ok (made', changed') ∧ made'.exhausted = false ∧ fixed.Reordered made'.types := by
  have hr := t.imposeAll_refines (before ++ after)
  have hr' := t.imposeAll_refines (before ++ .typed e candidate :: after)
  have hextensional := @Typist.imposeAll_extensional t (before ++ .typed e candidate :: after)
  induction rounds generalizing p p' changed with
  | zero =>
    cases hrun
    cases hcalm
  | succ rounds ih =>
    rcases settle_succ_ok hrun with ⟨_, hstill⟩ | ⟨_, middle, _, hfirst, hrest⟩
    · -- The demands rest, and nothing is ahead of types that have settled.
      have hstill := ofRule_ok hstill
      have hp : p.types = fixed := (hr.unchanged hstill).symm.trans hmade
      rw [hmade, hp] at hstill
      have hsame : fixed.Reordered p'.types := ⟨hfixed, hp', (hp ▸ hahead).same hs.alike⟩
      have hstill' := Typist.imposeAll_echoes h hs.keep _ _ _ hstill (hs.alike e he) (hs.alike e he)
      have hrests := hextensional.rests hr' hsame hstill'
      exact ⟨p', false, settle_of_still (ofRule_eq_ok.2 ⟨hrests, rfl⟩) rounds, hcalm', hsame⟩
    · have hdown : middle.types.Refines t.ontology fixed :=
        hmade ▸ (settle_faithful hr rounds).refines hrest
      obtain ⟨types, moved, hrun', hahead'⟩ :=
        Typist.imposeAll_further_ahead h hs he p.types p'.types middle.types true hahead
          (ofRule_ok hfirst) hdown
      obtain ⟨made', changed'', hsettle, hend⟩ :=
        @ih middle { p' with types } _ hrest hahead' (hextensional.nodup hp' hrun') hcalm'
      cases moved with
      | true =>
        have hmoved : ofRule (t.imposeAll (before ++ .typed e candidate :: after)) p' =
            .ok ({ p' with types }, true) := ofRule_eq_ok.2 ⟨hrun', rfl⟩
        exact ⟨made', true, settle_of_moved hmoved hsettle, hend⟩
      | false =>
        -- The demands rest already with the candidate, and so they do in the rounds to come.
        obtain rfl : types = p'.types := hr'.unchanged hrun'
        have hstill : ofRule (t.imposeAll (before ++ .typed e candidate :: after)) p' =
            .ok (p', false) := ofRule_eq_ok.2 ⟨hrun', rfl⟩
        refine ⟨p', false, settle_of_still hstill rounds, hcalm', ?_⟩
        cases rounds with
        | zero =>
          cases hsettle
          cases hend.1
        | succ rounds =>
          cases (settle_of_still hstill rounds).symm.trans hsettle
          exact hend.2

/-- **Demands settle at the same types with one more that does not disturb them**, and they tell a
change alike. -/
theorem settle_further {rounds : Nat} {made : Progress} {changed : Bool}
    (hrun : settle (t.imposeAll (before ++ after)) rounds ⟨.empty, false⟩ = .ok (made, changed))
    (hcalm : made.exhausted = false) (he : made.types.find? e = some type)
    (hu : t.Undisturbed before after made.types e type candidate)
    (hkeep : t.ontology.refine type candidate = .keep)
    (hback : candidate = type ∨ t.ontology.refine candidate type = .replace) :
    ∃ made', settle (t.imposeAll (before ++ .typed e candidate :: after)) rounds ⟨.empty, false⟩ =
      .ok (made', changed) ∧ made.Reordered made' := by
  have hr := t.imposeAll_refines (before ++ after)
  have hr' := t.imposeAll_refines (before ++ .typed e candidate :: after)
  have hempty : (OrderedMap.empty : TypeMap).keys.Nodup := List.nodup_nil
  have hnodup : made.types.keys.Nodup :=
    settle_keeps (·.keys.Nodup) (fun ht => (Typist.imposeAll_extensional _).nodup ht) hempty hrun
  cases hu with
  | early hbefore hfound =>
    cases rounds with
    | zero =>
      cases hrun
      cases hcalm
    | succ rounds =>
      rcases settle_succ_ok hrun with ⟨rfl, _⟩ | ⟨rfl, middle, _, hfirst, hrest⟩
      · cases (settle_faithful hr _).moved hrun rfl he
      · -- The first time the candidate comes, nothing happens, and so it is from then on.
        have hfirst := ofRule_eq_ok.1 hfirst
        obtain ⟨hfirst', hearly⟩ := Typist.imposeAll_of_early hkeep hbefore hfound hfirst.1
        have hmiddle :=
          TypeMap.find?_between h hearly ((settle_faithful hr rounds).refines hrest) hfound he
        have hrest' :=
          settle_echoes h hr (Typist.imposeAll_echoes h hkeep) rounds _ _ _ hrest hmiddle he
        refine ⟨made, settle_of_moved (ofRule_eq_ok.2 ⟨hfirst', hfirst.2⟩) hrest', ?_, rfl⟩
        exact ⟨hnodup, hnodup, fun _ => rfl⟩
  | alike ha =>
    have hrest := settle_rests hr hrun hcalm
    have hs := ha.sooner (t.met_of_imposeAll hrest) hkeep hback
    have hstart :
        TypeMap.Ahead t.ontology (Demand.Linked (before ++ after) e) type candidate .empty .empty :=
      fun e => ⟨fun _ => .level nofun, fun _ => rfl⟩
    have hfresh : (⟨.empty, false⟩ : Progress).exhausted = false := rfl
    obtain ⟨made', changed', hrun', hcalm', hsame⟩ :=
      settle_ahead h hs (.refl e) hnodup hrun rfl hcalm hstart hempty hfresh
    obtain rfl := (settle_faithful hr rounds).moved hrun rfl he
    obtain rfl := (settle_faithful hr' rounds).moved hrun' rfl ((hsame.same e).symm.trans he)
    exact ⟨made', hrun', hsame, hcalm.trans hcalm'.symm⟩

end Pass

/-! ## Rounds -/

theorem Concord.exists_right {ε ε' α β : Type} {R : α → β → Prop} {x : Except ε α} {y : Except ε' β}
    (h : Concord R x y) {a : α} (hx : x = .ok a) : ∃ b, y = .ok b ∧ R a b := by
  cases h with
  | ok hab =>
    cases hx
    exact ⟨_, rfl, hab⟩
  | error fault fault' => cases hx

namespace Pass
variable {o : Ontology}

/-- The first round of a repetition that does not run out, and the rounds after it. -/
theorem iterate_ok {a : Pass} {rounds : Nat} {p last : Progress}
    (hrun : iterate a rounds p = .ok last) (hcalm : last.exhausted = false) :
    ∃ n middle changed, rounds = n + 1 ∧ a p = .ok (middle, changed) ∧ middle.exhausted = false ∧
      (changed = false ∧ last = middle ∨ changed = true ∧ iterate a n middle = .ok last) := by
  cases rounds with
  | zero =>
    cases hrun
    cases hcalm
  | succ n =>
    obtain ⟨⟨middle, changed⟩, hfirst, hrun⟩ := bind_eq_ok.1 hrun
    refine ⟨n, middle, changed, rfl, hfirst, ?_⟩
    dsimp only at hrun
    split at hrun
    · rename_i hgoes
      obtain ⟨rfl, hflag⟩ := (Bool.and_eq_true _ _).mp hgoes
      exact ⟨by simpa using hflag, .inr ⟨rfl, hrun⟩⟩
    · rename_i hstops
      cases pure_eq_ok.1 hrun
      refine ⟨hcalm, .inl ⟨?_, rfl⟩⟩
      simpa [hcalm] using hstops

theorem iterate_of_first {a : Pass} {p middle : Progress} {changed : Bool}
    (hfirst : a p = .ok (middle, changed)) (hcalm : middle.exhausted = false) (n : Nat) :
    iterate a (n + 1) p = if changed then iterate a n middle else .ok middle := by
  change (a p >>= fun made => _) = _
  rw [hfirst]
  change (if changed && !middle.exhausted then iterate a n middle else pure middle) = _
  rw [hcalm, Bool.not_false, Bool.and_true]
  rfl

/-- A repetition does not end above where its first round does. -/
theorem Faithful.iterate_below_first {a : Pass} (ha : a.Faithful o) {n : Nat}
    {middle last : Progress} {changed : Bool}
    (hends : changed = false ∧ last = middle ∨ changed = true ∧ iterate a n middle = .ok last) :
    middle.types.Refines o last.types := by
  rcases hends with ⟨_, rfl⟩ | ⟨_, hrest⟩
  · exact .refl _
  · exact ha.iterate_refines hrest

/-- A repetition does the same with a step that does the same. -/
theorem iterate_echoes {defs : Definitions} (h : Ontology.ofDefinitions defs = .ok o) {a a' : Pass}
    {e : Typeable} {type : Iri} (ha : a.Faithful o) (hecho : a.Echoes e type a') {rounds : Nat}
    {p last : Progress} (hrun : iterate a rounds p = .ok last) (hcalm : last.exhausted = false)
    (he : p.types.find? e = some type) (he' : last.types.find? e = some type) :
    iterate a' rounds p = .ok last := by
  induction rounds generalizing p with
  | zero => exact hrun
  | succ rounds ih =>
    obtain ⟨_, middle, changed, hn, hfirst, hout, hends⟩ := iterate_ok hrun hcalm
    cases hn
    have hmiddle :=
      TypeMap.find?_between h (ha.refines hfirst) (ha.iterate_below_first hends) he he'
    rw [iterate_of_first (hecho p middle changed hfirst he hmiddle) hout]
    cases hends with
    | inl hstops =>
      obtain ⟨rfl, rfl⟩ := hstops
      rfl
    | inr hgoes =>
      obtain ⟨rfl, hrest⟩ := hgoes
      exact ih hrest hmiddle

/-- If two steps come from some types to the same types, and one echoes the other from there on,
then repeating them comes to the same types. -/
theorem iterate_echoes_of_first {defs : Definitions} (h : Ontology.ofDefinitions defs = .ok o)
    {a a' : Pass} {e : Typeable} {type : Iri} (ha : a.Faithful o) (hecho : a.Echoes e type a')
    (ha' : a'.Extensional) {rounds : Nat} {p middle middle' last : Progress} {changed : Bool}
    (hfirst : a p = .ok (middle, changed)) (hfirst' : a' p = .ok (middle', changed))
    (hsame : middle.Reordered middle') (hrun : iterate a rounds p = .ok last)
    (hcalm : last.exhausted = false) (hmiddle : middle.types.find? e = some type)
    (hlast : last.types.find? e = some type) :
    ∃ last', iterate a' rounds p = .ok last' ∧ last.Reordered last' := by
  obtain ⟨n, _, _, rfl, hfirst'', hout, hends⟩ := iterate_ok hrun hcalm
  cases hfirst.symm.trans hfirst''
  rw [iterate_of_first hfirst' (hsame.exhausted.symm.trans hout)]
  cases hends with
  | inl hstops =>
    obtain ⟨rfl, rfl⟩ := hstops
    exact ⟨middle', rfl, hsame⟩
  | inr hgoes =>
    obtain ⟨rfl, hrest⟩ := hgoes
    have hrest' := iterate_echoes h ha hecho hrest hcalm hmiddle hlast
    exact (ha'.iterate n middle middle' hsame).exists_right hrest'

end Pass

namespace Typist
variable {t : Typist} {rounds : Nat} {statements statements' : List Statement}
  {filters : List Expression} {unions : Pass}

/-- A round that settles with a change and merges the unions is over. -/
theorem round_of_settled {p s made : Progress} {changed : Bool}
    (hs : Pass.settle (t.imposeAll (t.demands statements filters)) rounds p = .ok (s, true))
    (hunions : unions s = .ok (made, changed)) :
    t.round rounds statements filters unions p = .ok (made, true) := by
  unfold round
  rw [rules_eq]
  dsimp only
  rw [Pass.andThen_eq_ok hs hunions]
  rfl

theorem round_settled_ok {p s made : Progress} {changed : Bool}
    (hs : Pass.settle (t.imposeAll (t.demands statements filters)) rounds p = .ok (s, true))
    (hrun : t.round rounds statements filters unions p = .ok (made, changed)) :
    ∃ merged, unions s = .ok (made, merged) := by
  have hcases := t.round_ok rounds hrun
  rw [rules_eq] at hcases
  rcases hcases with ⟨_, hmoved⟩ | ⟨_, hstill, _⟩
  · obtain ⟨_, _, merged, hsettle, hmerged, _⟩ := Pass.andThen_ok hmoved
    cases hs.symm.trans hsettle
    exact ⟨merged, hmerged⟩
  · obtain ⟨_, _, _, hsettle, _, hflags⟩ := Pass.andThen_ok hstill
    cases hs.symm.trans hsettle
    cases hflags

/-- A round does the same with rules that do the same, and with the same classes of subjects. -/
theorem round_echoes {defs : Definitions} (h : Ontology.ofDefinitions defs = .ok t.ontology)
    {e : Typeable} {type : Iri} (hunions : unions.Faithful t.ontology)
    (hecho : (t.imposeAll (t.demands statements filters)).Echoes e type
      (t.imposeAll (t.demands statements' filters)))
    (hclasses : Rule.all (statements.map t.subjectClass) =
      Rule.all (statements'.map t.subjectClass)) :
    (t.round rounds statements filters unions).Echoes e type
      (t.round rounds statements' filters unions) := by
  have hrules := t.imposeAll_refines (t.demands statements filters)
  have hsettle := Pass.settle_faithful hrules rounds
  have hfirst := (Pass.settle_echoes h hrules hecho rounds).andThen h hsettle hunions
  intro p made changed hrun he he'
  have hcases := t.round_ok rounds hrun
  rw [rules_eq] at hcases
  unfold round
  rw [rules_eq, ← hclasses]
  dsimp only
  rcases hcases with ⟨rfl, hmoved⟩ | ⟨middle, hstill, hlast⟩
  · rw [hfirst p made true hmoved he he']
    rfl
  · have hmiddle := TypeMap.find?_between h ((hsettle.andThen hunions).refines hstill)
      ((Pass.ofRule_faithful (t.classes_refine statements)).refines hlast) he he'
    rw [hfirst p middle false hstill he hmiddle]
    exact hlast

end Typist

end OntoQuery
