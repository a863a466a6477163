import OntoQuery.Proofs.BoundVariables

/-!
# Where the content of an order key is bound

Results that are ordered by a value are ordered by its content, and the body has to bind the
content. Here it is proved where: at the end of each outermost group that binds the value, and
nowhere else (`order_content_placement`). An optional value is bound inside OPTIONAL, so its content
is too, and ordering by it leaves no result out.

A group inside another one is found by a `Path`. A group is known by what stands at its paths, each
taken without the groups inside it (`Group.frame`, `Group.eq_of_frames`); so it is enough to say of
each path whether the statement is added there.
-/

namespace OntoQuery

/-- The way to a group inside another one: in each group, from the outermost on, the position of the
pattern to go into, and the position of the group in it. -/
abbrev Path := List (Nat × Nat)

namespace Pattern

/-- The groups right inside a pattern that can bind variables for what is around it. -/
def bindingGroups : Pattern → List Group
  | .minus _ => []
  | p => p.groups

/-- The pattern without what stands in its groups. -/
def frame : Pattern → Pattern
  | .statement s => .statement s
  | .optional _ => .optional []
  | .union gs => .union (gs.map fun _ => [])
  | .filter e => .filter e
  | .minus _ => .minus []

theorem eq_of_frame {p p' : Pattern} (h : p.frame = p'.frame) (hgroups : p.groups = p'.groups) :
    p = p' := by
  cases p <;> cases p' <;> simp_all [frame, groups]

theorem length_groups_of_frame {p p' : Pattern} (h : p.frame = p'.frame) :
    p.groups.length = p'.groups.length := by
  cases p <;> cases p' <;> simp_all [frame, groups]

theorem bindingGroups_subset (p : Pattern) : p.bindingGroups ⊆ p.groups := by
  cases p with
  | minus g => exact List.nil_subset _
  | _ => exact List.Subset.refl _

end Pattern

namespace Group

/-- The group at a path that goes only into those groups of a pattern that `into` lists. -/
def follow (into : Pattern → List Group) (g : Group) : Path → Option Group
  | [] => some g
  | (i, k) :: path => (g[i]?).bind fun p => ((into p)[k]?).bind fun inner => follow into inner path

/-- The group at a path, under OPTIONAL, UNION or MINUS. -/
def at? (g : Group) (path : Path) : Option Group := g.follow Pattern.groups path

/-- The group at a path through OPTIONAL and UNION only. -/
def bindingAt? (g : Group) (path : Path) : Option Group := g.follow Pattern.bindingGroups path

/-- What stands in the group itself. -/
def frame (g : Group) : Group := g.map Pattern.frame

/-- A statement of the group itself has the variable as its subject or object. -/
def Binds (g : Group) (v : Variable) : Prop := ∃ s, .statement s ∈ g ∧ s.Joins v

/-- At the path is a group that binds the variable, and no group around it does. -/
def Outermost (g : Group) (v : Variable) (path : Path) : Prop :=
  (∃ inner, g.bindingAt? path = some inner ∧ inner.Binds v) ∧
    ∀ above, above <+: path → above ≠ path → ∀ outer, g.bindingAt? above = some outer →
      ¬ outer.Binds v

theorem binds_iff {g : Group} {v : Variable} : g.binds v = true ↔ g.Binds v := by
  rw [binds, List.any_eq_true]
  constructor
  · rintro ⟨s, hs, hjoins⟩
    obtain ⟨p, hp, hstatement⟩ := List.mem_filterMap.1 hs
    cases p <;> cases hstatement
    exact ⟨s, hp, by simpa [Statement.Joins] using hjoins⟩
  · rintro ⟨s, hs, hjoins⟩
    exact ⟨s, List.mem_filterMap.2 ⟨_, hs, rfl⟩, by simpa [Statement.Joins] using hjoins⟩

/-! ## Paths -/

section
variable {into : Pattern → List Group} {g : Group} {i k : Nat} {path : Path}

theorem follow_nil : g.follow into [] = some g := rfl

theorem follow_cons :
    g.follow into ((i, k) :: path) =
      (g[i]?).bind fun p => ((into p)[k]?).bind fun inner => inner.follow into path := rfl

theorem follow_cons_eq_some {inner : Group} :
    g.follow into ((i, k) :: path) = some inner ↔
      ∃ p middle, g[i]? = some p ∧ (into p)[k]? = some middle ∧
        middle.follow into path = some inner := by
  simp [follow_cons, Option.bind_eq_some_iff]

end

/-- Induction on groups where all patterns of a group are treated alike. -/
@[elab_as_elim] theorem by_inner {P : Group → Prop} (g : Group)
    (step : ∀ g : Group, (∀ p ∈ g, ∀ inner ∈ p.groups, P inner) → P g) : P g := by
  have hinner : ∀ p ∈ g, ∀ inner ∈ p.groups, P inner := by
    induction g using Group.by_groups with
    | nil => exact nofun
    | cons p ps ihg ih =>
      intro q hq inner hinner
      rcases List.mem_cons.1 hq with rfl | hq
      · exact step inner (ihg inner hinner)
      · exact ih q hq inner hinner
  exact step g hinner

/-- A group is known by what stands at its paths. -/
theorem eq_of_frames {g g' : Group}
    (h : ∀ path, (g.at? path).map frame = (g'.at? path).map frame) : g = g' := by
  induction g using by_inner generalizing g' with
  | step g ih =>
    have hown : g.frame = g'.frame := Option.some.inj (h [])
    have hlength : g.length = g'.length := by
      simpa [frame] using congrArg List.length hown
    refine List.ext_getElem hlength fun i hi hi' => ?_
    have hframe : g[i].frame = g'[i].frame := by
      simpa [frame, hi, hi'] using congrArg (·[i]?) hown
    refine Pattern.eq_of_frame hframe (List.ext_getElem (Pattern.length_groups_of_frame hframe) ?_)
    intro k hk hk'
    refine ih _ (List.getElem_mem hi) _ (List.getElem_mem hk) fun path => ?_
    simpa [at?, follow_cons, hi, hi', hk, hk'] using h ((i, k) :: path)

/-! ## Outermost groups -/

section
variable {g : Group} {v : Variable} {i k : Nat} {path : Path}

theorem outermost_nil : g.Outermost v [] ↔ g.Binds v := by
  constructor
  · rintro ⟨⟨_, hinner, hbinds⟩, _⟩
    cases hinner
    exact hbinds
  · intro hbinds
    refine ⟨⟨g, rfl, hbinds⟩, ?_⟩
    intro above habove hne
    exact absurd (List.prefix_nil.1 habove) hne

theorem outermost_cons : g.Outermost v ((i, k) :: path) ↔
    ¬ g.Binds v ∧ ∃ p inner, g[i]? = some p ∧ p.bindingGroups[k]? = some inner ∧
      inner.Outermost v path := by
  constructor
  · rintro ⟨⟨inner, hinner, hbinds⟩, habove⟩
    obtain ⟨p, middle, hp, hmiddle, hinner⟩ := follow_cons_eq_some.1 hinner
    refine ⟨habove [] List.nil_prefix nofun g rfl, p, middle, hp, hmiddle,
      ⟨inner, hinner, hbinds⟩, ?_⟩
    intro above hstart hne outer houter
    refine habove ((i, k) :: above) (List.cons_prefix_cons.2 ⟨rfl, hstart⟩) ?_ outer ?_
    · exact fun heq => hne (List.cons.inj heq).2
    · exact follow_cons_eq_some.2 ⟨p, middle, hp, hmiddle, houter⟩
  · rintro ⟨hown, p, middle, hp, hmiddle, ⟨inner, hinner, hbinds⟩, habove⟩
    refine ⟨⟨inner, follow_cons_eq_some.2 ⟨p, middle, hp, hmiddle, hinner⟩, hbinds⟩, ?_⟩
    intro above hstart hne outer houter
    cases above with
    | nil =>
      cases houter
      exact hown
    | cons step above =>
      obtain ⟨rfl, habove'⟩ := List.cons_prefix_cons.1 hstart
      obtain ⟨p', middle', hp', hmiddle', houter⟩ := follow_cons_eq_some.1 houter
      cases hp.symm.trans hp'
      cases hmiddle.symm.trans hmiddle'
      exact habove above habove' (fun heq => hne (congrArg _ heq)) outer houter

end

/-- Whether at the path is an outermost group that binds the variable. -/
def isOutermost (v : Variable) (g : Group) : Path → Bool
  | [] => g.binds v
  | (i, k) :: path =>
    !g.binds v && ((g[i]?).bind fun p => p.bindingGroups[k]?).any fun inner =>
      isOutermost v inner path

theorem isOutermost_iff {g : Group} {v : Variable} {path : Path} :
    g.isOutermost v path = true ↔ g.Outermost v path := by
  induction path generalizing g with
  | nil => exact binds_iff.trans outermost_nil.symm
  | cons step path ih =>
    obtain ⟨i, k⟩ := step
    rw [outermost_cons, isOutermost, Bool.and_eq_true, Bool.not_eq_true',
      ← Bool.not_eq_true, binds_iff]
    refine and_congr_right fun _ => ?_
    simp only [Option.any_eq_true, Option.bind_eq_some_iff, ih]
    constructor
    · rintro ⟨inner, ⟨p, hp, hinner⟩, houtermost⟩
      exact ⟨p, inner, hp, hinner, houtermost⟩
    · rintro ⟨p, inner, hp, hinner, houtermost⟩
      exact ⟨inner, ⟨p, hp, hinner⟩, houtermost⟩

instance {g : Group} {v : Variable} {path : Path} : Decidable (g.Outermost v path) :=
  decidable_of_iff _ isOutermost_iff

/-- The second group is the first with the statement at the end of each outermost group that binds
the variable. -/
def Extended (v : Variable) (t : Statement) (g g' : Group) : Prop :=
  ∀ path, (g'.at? path).map frame =
    (g.at? path).map fun inner => inner.frame ++ if g.Outermost v path then [.statement t] else []

theorem Extended.unique {v : Variable} {t : Statement} {g g' g'' : Group} (h : Extended v t g g')
    (h' : Extended v t g g'') : g' = g'' :=
  eq_of_frames fun path => (h path).trans (h' path).symm

/-! ## Adding a statement -/

section
variable {v : Variable} {t : Statement}

/-- The group with the statement added where the variable is bound, and whether it is bound
anywhere. -/
def addOutermost (v : Variable) (t : Statement) (g : Group) : Group × Bool :=
  extend v t g (addInside v t g)

theorem addWhereBound?_eq (g : Group) :
    g.addWhereBound? v t =
      if (g.addOutermost v t).2 then some (g.addOutermost v t).1 else none := by
  unfold addWhereBound? addOutermost
  split <;> simp_all

theorem addWhereBound?_eq_some {g g' : Group} : g.addWhereBound? v t = some g' ↔
    (g.addOutermost v t).2 = true ∧ (g.addOutermost v t).1 = g' := by
  simp [addWhereBound?_eq]

theorem addInside_eq (g : Group) :
    addInside v t g =
      (g.map fun p => (p.addWhereBound v t).1, g.any fun p => (p.addWhereBound v t).2) := by
  induction g with
  | nil => rfl
  | cons p ps ih => simp only [addInside, ih, List.map_cons, List.any_cons]

theorem addInsideAll_eq (gs : List Group) :
    addInsideAll v t gs =
      (gs.map fun g => (g.addOutermost v t).1, gs.any fun g => (g.addOutermost v t).2) := by
  induction gs with
  | nil => rfl
  | cons g gs ih => simp only [addInsideAll, ih, List.map_cons, List.any_cons, addOutermost]

theorem addOutermost_of_binds {g : Group} (h : g.Binds v) :
    g.addOutermost v t = (g ++ [.statement t], true) :=
  if_pos (binds_iff.2 h)

theorem addOutermost_of_not_binds {g : Group} (h : ¬ g.Binds v) :
    g.addOutermost v t =
      (g.map fun p => (p.addWhereBound v t).1, g.any fun p => (p.addWhereBound v t).2) := by
  rw [← addInside_eq]
  exact if_neg fun hbinds => h (binds_iff.1 hbinds)

theorem frame_addWhereBound (p : Pattern) : (p.addWhereBound v t).1.frame = p.frame := by
  cases p with
  | union gs =>
    simp only [Pattern.addWhereBound, addInsideAll_eq, Pattern.frame, List.map_map]
    rfl
  | _ => rfl

theorem added_addWhereBound (p : Pattern) :
    (p.addWhereBound v t).2 = p.bindingGroups.any fun g => (g.addOutermost v t).2 := by
  cases p with
  | optional g => simp [Pattern.addWhereBound, Pattern.bindingGroups, Pattern.groups, addOutermost]
  | union gs => simp [Pattern.addWhereBound, Pattern.bindingGroups, Pattern.groups, addInsideAll_eq]
  | _ => rfl

/-- A pattern has the statement added in all groups inside it, or it binds nothing and stays. -/
theorem groups_addWhereBound (p : Pattern) :
    p.bindingGroups = p.groups ∧
        (p.addWhereBound v t).1.groups = p.groups.map (fun g => (g.addOutermost v t).1) ∨
      p.bindingGroups = [] ∧ (p.addWhereBound v t).1 = p := by
  cases p with
  | statement s => exact .inr ⟨rfl, rfl⟩
  | optional g => exact .inl ⟨rfl, rfl⟩
  | union gs => exact .inl ⟨rfl, by simp [Pattern.addWhereBound, Pattern.groups, addInsideAll_eq]⟩
  | filter e => exact .inr ⟨rfl, rfl⟩
  | minus g => exact .inr ⟨rfl, rfl⟩

theorem at?_append_statement (g : Group) (i k : Nat) (path : Path) :
    at? (g ++ [.statement t]) ((i, k) :: path) = g.at? ((i, k) :: path) := by
  simp only [at?, follow_cons]
  rcases Nat.lt_or_ge i g.length with hi | hi
  · rw [List.getElem?_append_left hi]
  · rw [List.getElem?_append_right hi, List.getElem?_eq_none hi]
    cases i - g.length with
    | zero => rfl
    | succ n => rfl

/-- At each path stands what stood there, with the statement after it where the group is an
outermost one that binds the variable. -/
theorem extended_addOutermost (g : Group) : Extended v t g (g.addOutermost v t).1 := by
  intro path
  induction path generalizing g with
  | nil =>
    by_cases hbinds : g.Binds v
    · rw [addOutermost_of_binds hbinds, if_pos (outermost_nil.2 hbinds)]
      exact congrArg some List.map_append
    · rw [addOutermost_of_not_binds hbinds, if_neg fun h => hbinds (outermost_nil.1 h)]
      simp [at?, follow_nil, frame, frame_addWhereBound]
  | cons step path ih =>
    obtain ⟨i, k⟩ := step
    by_cases hbinds : g.Binds v
    · rw [addOutermost_of_binds hbinds, if_neg fun h => (outermost_cons.1 h).1 hbinds,
        at?_append_statement]
      simp
    · rw [addOutermost_of_not_binds hbinds]
      simp only [at?, follow_cons, List.getElem?_map]
      cases hp : g[i]? with
      | none => rfl
      | some p =>
        simp only [Option.map_some, Option.bind_some]
        rcases groups_addWhereBound p with ⟨hbinding, hgroups⟩ | ⟨hbinding, hsame⟩
        · rw [hgroups, List.getElem?_map]
          cases hk : p.groups[k]? with
          | none => rfl
          | some inner =>
            have houtermost : g.Outermost v ((i, k) :: path) ↔ inner.Outermost v path := by
              rw [outermost_cons]
              simp [hbinds, hp, hbinding, hk]
            simp only [houtermost]
            exact ih inner
        · have hnot : ¬ g.Outermost v ((i, k) :: path) := by
            rw [outermost_cons]
            simp [hp, hbinding]
          rw [hsame, if_neg hnot]
          simp only [List.append_nil]

/-- The variable is found exactly if some group binds it that is not under MINUS. -/
theorem added_addOutermost {g : Group} :
    (g.addOutermost v t).2 = true ↔ ∃ path inner, g.bindingAt? path = some inner ∧
      inner.Binds v := by
  constructor
  · induction g using by_inner with
    | step g ih =>
      intro hadded
      by_cases hbinds : g.Binds v
      · exact ⟨[], g, rfl, hbinds⟩
      · rw [addOutermost_of_not_binds hbinds, List.any_eq_true] at hadded
        obtain ⟨p, hp, hadded⟩ := hadded
        rw [added_addWhereBound, List.any_eq_true] at hadded
        obtain ⟨middle, hmiddle, hadded⟩ := hadded
        obtain ⟨path, inner, hinner, hbinds⟩ :=
          ih p hp middle (p.bindingGroups_subset hmiddle) hadded
        obtain ⟨i, hi⟩ := List.getElem?_of_mem hp
        obtain ⟨k, hk⟩ := List.getElem?_of_mem hmiddle
        exact ⟨(i, k) :: path, inner, follow_cons_eq_some.2 ⟨p, middle, hi, hk, hinner⟩, hbinds⟩
  · rintro ⟨path, inner, hinner, hbinds⟩
    induction path generalizing g with
    | nil =>
      cases hinner
      rw [addOutermost_of_binds hbinds]
    | cons step path ih =>
      obtain ⟨p, middle, hp, hmiddle, hinner⟩ := follow_cons_eq_some.1 hinner
      by_cases hown : g.Binds v
      · rw [addOutermost_of_binds hown]
      · rw [addOutermost_of_not_binds hown, List.any_eq_true]
        refine ⟨p, List.mem_of_getElem? hp, ?_⟩
        rw [added_addWhereBound, List.any_eq_true]
        exact ⟨middle, List.mem_of_getElem? hmiddle, ih hinner⟩

/-- Where the variable is not bound, nothing is changed. -/
theorem addOutermost_of_not_added {g : Group} (h : (g.addOutermost v t).2 = false) :
    (g.addOutermost v t).1 = g := by
  refine eq_of_frames fun path => ?_
  have hnot : ¬ g.Outermost v path := by
    rintro ⟨⟨inner, hinner, hbinds⟩, _⟩
    cases h.symm.trans (added_addOutermost.2 ⟨path, inner, hinner, hbinds⟩)
  rw [extended_addOutermost g path, if_neg hnot]
  simp only [List.append_nil]

end

end Group

/-! ## Ordering by content -/

namespace Expander
variable {x : Expander}

/-- The statement that binds the content of a value node. -/
def contentStatement (v : Variable) (kind : ValueKind) : Statement :=
  ⟨.var v, .ofIri kind.contentPredicate, .var v.orderContent⟩

/-- `Ordered x cs body ordered`: the second body is the first with, for one order key after the
other, the content of the value bound in each outermost group that binds the value. -/
inductive Ordered (x : Expander) : List OrderCriterion → Group → Group → Prop where
  | done (body : Group) : Ordered x [] body body
  | other {c : OrderCriterion} {cs : List OrderCriterion} {body ordered : Group} :
    x.orderKind? c.key = none → Ordered x cs body ordered → Ordered x (c :: cs) body ordered
  | content {c : OrderCriterion} {cs : List OrderCriterion} {kind : ValueKind}
    {body middle ordered : Group} :
    x.orderKind? c.key = some kind →
    (∃ path inner, body.bindingAt? path = some inner ∧ inner.Binds c.key) →
    Group.Extended c.key (contentStatement c.key kind) body middle →
    Ordered x cs middle ordered → Ordered x (c :: cs) body ordered

theorem ordered_of_orderByContent {cs order : List OrderCriterion} {body body' : Group}
    (h : x.orderByContent cs body = .ok (order, body')) : x.Ordered cs body body' := by
  induction cs generalizing body order with
  | nil =>
    rw [orderByContent] at h
    cases h
    exact .done _
  | cons c cs ih =>
    obtain ⟨rest, middle, _, hrest, ⟨hkind, rfl⟩ | ⟨kind, hkind, hadded⟩⟩ :=
      orderByContent_cons_ok h
    · exact .other hkind (ih hrest)
    · obtain ⟨hfound, rfl⟩ := Group.addWhereBound?_eq_some.1 hadded
      exact .content hkind (Group.added_addOutermost.1 hfound) (Group.extended_addOutermost _)
        (ih hrest)

/-- What a body mentions under a caller's name, it mentions before results are ordered. -/
theorem mentions_of_orderByContent {cs order : List OrderCriterion} {body body' : Group}
    (h : x.orderByContent cs body = .ok (order, body')) {v : Variable} (hv : v.isReserved = false)
    (hmentions : body'.mentions v = true) : body.mentions v = true := by
  induction cs generalizing body order with
  | nil =>
    rw [orderByContent] at h
    cases h
    exact hmentions
  | cons c cs ih =>
    obtain ⟨rest, middle, _, hrest, ⟨_, rfl⟩ | ⟨kind, _, hadded⟩⟩ := orderByContent_cons_ok h
    · exact ih hrest
    · obtain ⟨s, hs, hv'⟩ := List.any_eq_true.1 (ih hrest)
      have hgains : Group.Gains (Eq _) _ _ := Group.addWhereBound?_gains rfl hadded
      rcases hgains.adds s hs with hs | rfl
      · exact Group.mentions_of_mem hs hv'
      · rcases mentions_contentStatement.1 hv' with rfl | rfl
        · obtain ⟨⟨s, hs, hjoins⟩, _⟩ := Group.addWhereBound?_found hadded
          exact Group.mentions_of_mem hs (mentions_of_joins hjoins)
        · rw [Variable.orderContent_reserved] at hv
          cases hv

end Expander

namespace Query
variable {q : Query} {o : Ontology} {types : Types} {d : Dialect} {size : UInt32}
  {stored : StoreQuery}

/-- A checked query that comes to the store does so without its order too. -/
theorem exists_unordered (hcheck : q.check types = .ok ())
    (h : q.toStore o types d size = .ok stored) :
    ∃ plain, { q with orderBy := [] }.toStore o types d size = .ok plain := by
  have hname := main_not_reserved hcheck h
  obtain ⟨main, hmain, h⟩ := bind_eq_ok.1 h
  obtain ⟨body, hbody, h⟩ := bind_eq_ok.1 h
  obtain ⟨⟨order, ordered⟩, horder, h⟩ := bind_eq_ok.1 h
  obtain ⟨template, htemplate, h⟩ := bind_eq_ok.1 h
  obtain ⟨count, hcount, h⟩ := bind_eq_ok.1 h
  cases pure_eq_ok.1 h
  have hbound := Expander.mentions_of_orderByContent horder hname (ContentQuery.counted_ok hcount).1
  exact ⟨_, bind_eq_ok.2 ⟨main, hmain, bind_eq_ok.2 ⟨body, hbody, bind_eq_ok.2 ⟨([], body), rfl,
    bind_eq_ok.2 ⟨template, htemplate, bind_eq_ok.2 ⟨⟨main, body⟩, if_pos hbound, rfl⟩⟩⟩⟩⟩⟩

/-- The body of a query is that of the query without its order, with contents bound. -/
theorem ordered_of_toStore (h : q.toStore o types d size = .ok stored) {plain : StoreQuery}
    (hplain : { q with orderBy := [] }.toStore o types d size = .ok plain) :
    Expander.Ordered ⟨o, types⟩ q.orderBy plain.content.body stored.content.body := by
  obtain ⟨_, ⟨expanded, order, hexpanded, horder⟩, _⟩ := toStore_stages h
  obtain ⟨_, ⟨expanded', order', hexpanded', horder'⟩, _⟩ := toStore_stages hplain
  cases hexpanded.symm.trans hexpanded'
  have hbody : expanded.finished d o = plain.content.body := (Prod.mk.inj (Except.ok.inj horder')).2
  rw [← hbody]
  exact Expander.ordered_of_orderByContent horder

end Query

/-- **Ordering never makes an optional value required.** A statement is added exactly if a group
outside MINUS binds the variable; it is added at the end of each outermost group that does, and
nothing else is changed. So the body of a query with an order is the body of the query without it,
in which the contents of order keys are bound where the keys themselves are bound. -/
theorem order_content_placement :
    (∀ (v : Variable) (t : Statement) (g : Group),
      ((g.addOutermost v t).2 = true ↔
        ∃ path inner, g.bindingAt? path = some inner ∧ inner.Binds v) ∧
      (∀ g', (g.addOutermost v t).1 = g' ↔ g.Extended v t g') ∧
      ((g.addOutermost v t).2 = false → (g.addOutermost v t).1 = g) ∧
      g.addWhereBound? v t =
        if (g.addOutermost v t).2 then some (g.addOutermost v t).1 else none) ∧
    ∀ (q : Query) (o : Ontology) (types : Types) (d : Dialect) (size : UInt32)
      (stored : StoreQuery),
      q.toStore o types d size = .ok stored →
        (q.check types = .ok () → ∃ plain,
          { q with orderBy := [] }.toStore o types d size = .ok plain) ∧
        ∀ plain, { q with orderBy := [] }.toStore o types d size = .ok plain →
          Expander.Ordered ⟨o, types⟩ q.orderBy plain.content.body stored.content.body := by
  refine ⟨?_, ?_⟩
  · intro v t g
    refine ⟨Group.added_addOutermost, ?_, Group.addOutermost_of_not_added,
      Group.addWhereBound?_eq g⟩
    intro g'
    constructor
    · rintro rfl
      exact Group.extended_addOutermost g
    · exact (Group.extended_addOutermost g).unique
  · intro q o types d size stored h
    exact ⟨fun hcheck => Query.exists_unordered hcheck h, fun plain => Query.ordered_of_toStore h⟩

/-- A text that is optional in one of two alternatives has its content bound there only, and not
where it stands under MINUS. -/
theorem order_content_placement_optional :
    let q := orderedResources
      [.isOf ⟨"r"⟩ "Resource",
        .union [[.isOf ⟨"x"⟩ "Resource"], [.optional [.isOf ⟨"t"⟩ "TextValue"]]],
        .minus [.isOf ⟨"t"⟩ "TextValue"]] [⟨"t"⟩]
    let content := Expander.contentStatement ⟨"t"⟩ .text
    ∃ o types stored plain, Ontology.build {} = .ok o ∧ q.inferTypes o 32 = .ok types ∧
      q.check types = .ok () ∧ q.toStore o types .graphDb defaultPageSize = .ok stored ∧
      { q with orderBy := [] }.toStore o types .graphDb defaultPageSize = .ok plain ∧
      Expander.Ordered ⟨o, types⟩ [{ key := ⟨"t"⟩ }] plain.content.body stored.content.body ∧
      stored.content.body.statements.count content = 1 ∧
      ((stored.content.body.bindingAt? [(3, 1), (0, 0)]).bind fun inner =>
        (inner.filterMap Pattern.statement?).getLast?) = some content := by
  intro q content
  obtain ⟨o, types, stored, hbuilt, htypes, hchecked, hstored, hcount, hcontent⟩ :=
    q.exists_stored .graphDb {} (fun _ _ stored =>
      stored.content.body.statements.count content = 1 ∧
      ((stored.content.body.bindingAt? [(3, 1), (0, 0)]).bind fun inner =>
        (inner.filterMap Pattern.statement?).getLast?) = some content) (by decide +kernel)
  obtain ⟨hexists, hordered⟩ :=
    order_content_placement.2 q o types .graphDb defaultPageSize stored hstored
  obtain ⟨plain, hplain⟩ := hexists hchecked
  exact ⟨o, types, stored, plain, hbuilt, htypes, hchecked, hstored, hplain,
    hordered plain hplain, hcount, hcontent⟩

end OntoQuery
