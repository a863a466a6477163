import OntoQuery.Proofs.Operands

/-!
# Groups by their first pattern

Groups and patterns contain each other. `Group.by_patterns` is the induction that the theory uses
for them: a group is empty, or it starts with one of the five patterns, and then the property is
known of the groups inside that pattern and of the patterns that follow.

The lemmas after it say which statements a group has at any depth, pattern by pattern. `Group.Has`
leads from a group to the patterns in it at any depth, and `Group.Inside` to the groups inside it.
-/

namespace OntoQuery

mutual

theorem Pattern.by_patterns_aux {P : Group → Prop} (nil : P [])
    (statement : ∀ (s : Statement) (ps : Group), P ps → P (.statement s :: ps))
    (optional : ∀ g ps : Group, P g → P ps → P (.optional g :: ps))
    (union : ∀ (gs : List Group) (ps : Group), (∀ g ∈ gs, P g) → P ps → P (.union gs :: ps))
    (filter : ∀ (e : Expression) (ps : Group), P ps → P (.filter e :: ps))
    (minus : ∀ g ps : Group, P g → P ps → P (.minus g :: ps)) :
    ∀ (p : Pattern) (ps : Group), P ps → P (p :: ps)
  | .statement s, ps, h => statement s ps h
  | .optional g, ps, h =>
    optional g ps (Group.by_patterns_aux nil statement optional union filter minus g) h
  | .union gs, ps, h =>
    union gs ps (Group.all_by_patterns_aux nil statement optional union filter minus gs) h
  | .filter e, ps, h => filter e ps h
  | .minus g, ps, h =>
    minus g ps (Group.by_patterns_aux nil statement optional union filter minus g) h

theorem Group.by_patterns_aux {P : Group → Prop} (nil : P [])
    (statement : ∀ (s : Statement) (ps : Group), P ps → P (.statement s :: ps))
    (optional : ∀ g ps : Group, P g → P ps → P (.optional g :: ps))
    (union : ∀ (gs : List Group) (ps : Group), (∀ g ∈ gs, P g) → P ps → P (.union gs :: ps))
    (filter : ∀ (e : Expression) (ps : Group), P ps → P (.filter e :: ps))
    (minus : ∀ g ps : Group, P g → P ps → P (.minus g :: ps)) :
    ∀ g : Group, P g
  | [] => nil
  | p :: ps =>
    Pattern.by_patterns_aux nil statement optional union filter minus p ps
      (Group.by_patterns_aux nil statement optional union filter minus ps)

theorem Group.all_by_patterns_aux {P : Group → Prop} (nil : P [])
    (statement : ∀ (s : Statement) (ps : Group), P ps → P (.statement s :: ps))
    (optional : ∀ g ps : Group, P g → P ps → P (.optional g :: ps))
    (union : ∀ (gs : List Group) (ps : Group), (∀ g ∈ gs, P g) → P ps → P (.union gs :: ps))
    (filter : ∀ (e : Expression) (ps : Group), P ps → P (.filter e :: ps))
    (minus : ∀ g ps : Group, P g → P ps → P (.minus g :: ps)) :
    ∀ gs : List Group, ∀ g ∈ gs, P g
  | [], _, h => by cases h
  | g :: gs, _, h => by
    cases h with
    | head => exact Group.by_patterns_aux nil statement optional union filter minus g
    | tail _ h => exact Group.all_by_patterns_aux nil statement optional union filter minus gs _ h

end

/-- Induction on groups: what holds of the empty group, and of a group whenever it holds of the
groups inside its first pattern and of the patterns after it, holds of every group. -/
@[elab_as_elim] theorem Group.by_patterns {P : Group → Prop} (g : Group) (nil : P [])
    (statement : ∀ (s : Statement) (ps : Group), P ps → P (.statement s :: ps))
    (optional : ∀ g ps : Group, P g → P ps → P (.optional g :: ps))
    (union : ∀ (gs : List Group) (ps : Group), (∀ g ∈ gs, P g) → P ps → P (.union gs :: ps))
    (filter : ∀ (e : Expression) (ps : Group), P ps → P (.filter e :: ps))
    (minus : ∀ g ps : Group, P g → P ps → P (.minus g :: ps)) : P g :=
  Group.by_patterns_aux nil statement optional union filter minus g

/-- The groups right inside a pattern, from left to right. -/
def Pattern.groups : Pattern → List Group
  | .statement _ => []
  | .optional g => [g]
  | .union gs => gs
  | .filter _ => []
  | .minus g => [g]

/-- Induction on groups where the kind of the first pattern does not matter, only what groups it
has. -/
@[elab_as_elim] theorem Group.by_groups {P : Group → Prop} (g : Group) (nil : P [])
    (cons : ∀ (p : Pattern) (ps : Group), (∀ g ∈ p.groups, P g) → P ps → P (p :: ps)) : P g := by
  induction g using Group.by_patterns with
  | nil => exact nil
  | statement s ps ih => exact cons _ ps (by simp [Pattern.groups]) ih
  | optional g ps ihg ih => exact cons _ ps (by simpa [Pattern.groups] using ihg) ih
  | union gs ps ihg ih => exact cons _ ps ihg ih
  | filter e ps ih => exact cons _ ps (by simp [Pattern.groups]) ih
  | minus g ps ihg ih => exact cons _ ps (by simpa [Pattern.groups] using ihg) ih

/-- The pattern stands in the group or in a group inside it, at any depth. -/
inductive Group.Has : Group → Pattern → Prop where
  | here {g : Group} {p : Pattern} : p ∈ g → Has g p
  | inside {g inner : Group} {q p : Pattern} : q ∈ g → inner ∈ q.groups → Has inner p → Has g p

theorem Entity.var?_eq_some {e : Entity} {v : Variable} : e.var? = some v ↔ e = .var v := by
  cases e with
  | iri ref => simp [Entity.var?]
  | var u => simp [Entity.var?]
  | lit l => simp [Entity.var?]

/-- The variables of a statement stand at its three places. -/
theorem Statement.mentions_eq_true {s : Statement} {v : Variable} :
    s.mentions v = true ↔ s.subject = .var v ∨ s.predicate = .var v ∨ s.object = .var v := by
  simp [mentions, entities, @eq_comm _ (Entity.var v)]

namespace Group

theorem visit_of_mem {g : Group} {s : Statement} (h : s ∈ statements g) :
    .statement s ∈ g.visits := by
  obtain ⟨part, hpart, heq⟩ := List.mem_filterMap.1 h
  have hstatement : part = .statement s := by
    cases part <;> cases heq
    rfl
  exact hstatement ▸ hpart

theorem mentions_of_mem {g : Group} {s : Statement} (hs : s ∈ statements g) {v : Variable}
    (hv : s.mentions v = true) : g.mentions v = true :=
  List.any_eq_true.2 ⟨s, hs, hv⟩

@[simp] theorem statements_nil : statements [] = [] := rfl

theorem statements_append (g g' : Group) :
    statements (g ++ g') = statements g ++ statements g' := by
  have parts : Pattern.partVisits (g ++ g') = Pattern.partVisits g ++ Pattern.partVisits g' := by
    induction g with
    | nil => rfl
    | cons p ps ih => simp only [List.cons_append, Pattern.partVisits, ih, List.append_assoc]
  simp only [statements, visits, parts, List.filterMap_cons, Visit.statement?,
    List.filterMap_append]

@[simp] theorem statements_statement (s : Statement) (ps : Group) :
    statements (.statement s :: ps) = s :: statements ps := rfl

@[simp] theorem statements_optional (g ps : Group) :
    statements (.optional g :: ps) = statements g ++ statements ps :=
  List.filterMap_append

@[simp] theorem statements_minus (g ps : Group) :
    statements (.minus g :: ps) = statements g ++ statements ps :=
  List.filterMap_append

@[simp] theorem statements_filter (e : Expression) (ps : Group) :
    statements (.filter e :: ps) = statements ps := by
  have hvisits : e.visits.filterMap Visit.statement? = [] :=
    List.filterMap_eq_nil_iff.2 e.visit_no_statement
  have hsplit : statements (.filter e :: ps) =
      e.visits.filterMap Visit.statement? ++ statements ps := List.filterMap_append
  rw [hsplit, hvisits, List.nil_append]

@[simp] theorem statements_union (gs : List Group) (ps : Group) :
    statements (.union gs :: ps) = gs.flatMap statements ++ statements ps := by
  have parts : (Pattern.groupVisits gs).filterMap Visit.statement? = gs.flatMap statements := by
    induction gs with
    | nil => rfl
    | cons g gs ih =>
      simp only [Pattern.groupVisits, List.filterMap_cons, Visit.statement?,
        List.filterMap_append, ih, List.flatMap_cons, statements, visits]
  have hsplit : statements (.union gs :: ps) =
      (Pattern.groupVisits gs).filterMap Visit.statement? ++ statements ps := List.filterMap_append
  rw [hsplit, parts]

/-- A statement that stands in a group itself is one of its statements. -/
theorem mem_statements {g : Group} {s : Statement} (h : .statement s ∈ g) : s ∈ statements g := by
  obtain ⟨before, after, rfl⟩ := List.append_of_mem h
  rw [statements_append, statements_statement]
  simp

end Group

/-- The variable is the subject or the object of the statement. -/
def Statement.Joins (s : Statement) (v : Variable) : Prop :=
  s.subject = .var v ∨ s.object = .var v

/-! ## Groups inside groups -/

/-- The group is right inside the pattern. -/
inductive Pattern.Opens : Pattern → Group → Prop where
  | optional (g : Group) : Opens (.optional g) g
  | union {gs : List Group} {g : Group} : g ∈ gs → Opens (.union gs) g
  | minus (g : Group) : Opens (.minus g) g

/-- `Inside g befores inner`: the group `inner` is `g` or inside it, at any depth. For each group on
the way, from the outermost on, `befores` lists the patterns that stand there before the one gone
into. -/
inductive Group.Inside : Group → List Group → Group → Prop where
  | here (g : Group) : Inside g [] g
  | into {before after middle inner : Group} {p : Pattern} {befores : List Group} :
    p.Opens middle → Inside middle befores inner →
      Inside (before ++ p :: after) (before :: befores) inner

/-- The function treats patterns one after the other, and keeps what is a group inside another
one. -/
structure Group.Structural (f : Group → Group) : Prop where
  append : ∀ g g', f (g ++ g') = f g ++ f g'
  opens : ∀ p g, p.Opens g → ∃ q, f [p] = [q] ∧ q.Opens (f g)

theorem Group.Inside.map {f : Group → Group} (hf : Structural f) {g inner : Group}
    {befores : List Group} (h : g.Inside befores inner) :
    (f g).Inside (befores.map f) (f inner) := by
  induction h with
  | here g => exact .here (f g)
  | @into before after middle inner p befores hp _ ih =>
    obtain ⟨q, hq, hopens⟩ := hf.opens _ _ hp
    have hsplit : f (before ++ p :: after) = f before ++ q :: f after := by
      rw [show p :: after = [p] ++ after from rfl, hf.append, hf.append, hq]
      rfl
    rw [hsplit, List.map_cons]
    exact .into hopens ih

/-- The statements of a group inside, and of what stands before it on the way, are statements of the
whole. -/
theorem Group.Inside.statements_subset {g inner : Group} {befores : List Group}
    (h : g.Inside befores inner) {part : Group} (hpart : part ∈ inner :: befores) :
    part.statements ⊆ g.statements := by
  induction h with
  | here g =>
    rw [List.mem_singleton.1 hpart]
    exact List.Subset.refl _
  | @into before after middle inner p befores hp _ ih =>
    have hmiddle : middle.statements ⊆ Group.statements (p :: after) := by
      intro s hs
      cases hp with
      | optional g => simp [hs]
      | minus g => simp [hs]
      | union hg =>
        rw [statements_union]
        exact List.mem_append_left _ (List.mem_flatMap.2 ⟨_, hg, hs⟩)
    rw [statements_append]
    rcases List.mem_cons.1 hpart with rfl | hpart
    · have hinner := ih List.mem_cons_self
      exact List.subset_append_of_subset_right _ (List.Subset.trans hinner hmiddle)
    · rcases List.mem_cons.1 hpart with rfl | hpart
      · exact List.subset_append_left _ _
      · have hbefore := ih (List.mem_cons_of_mem _ hpart)
        exact List.subset_append_of_subset_right _ (List.Subset.trans hbefore hmiddle)

theorem Group.Inside.cons {g inner : Group} {befores : List Group} (h : g.Inside befores inner)
    (p : Pattern) {s : Statement} (hs : .statement s ∈ inner) :
    ∃ befores' inner', Group.Inside (p :: g) befores' inner' ∧ .statement s ∈ inner' := by
  cases h with
  | here => exact ⟨[], p :: g, .here _, List.mem_cons_of_mem _ hs⟩
  | @into before after middle _ q befores hp hin =>
    exact ⟨_, inner, @Inside.into (p :: before) after middle inner q befores hp hin, hs⟩

/-- Every statement of a group stands in the group itself or in one inside it. -/
theorem Group.exists_inside {g : Group} {s : Statement} (h : s ∈ g.statements) :
    ∃ befores inner, g.Inside befores inner ∧ .statement s ∈ inner := by
  have inFirst : ∀ (p : Pattern) (ps inner : Group), p.Opens inner →
      (s ∈ inner.statements → ∃ befores inner', inner.Inside befores inner' ∧
        .statement s ∈ inner') →
      s ∈ inner.statements →
      ∃ befores inner', Group.Inside (p :: ps) befores inner' ∧ .statement s ∈ inner' := by
    intro p ps inner hp ih hs
    obtain ⟨befores, inner', hin, hmem⟩ := ih hs
    exact ⟨_, inner', @Inside.into [] ps inner inner' p befores hp hin, hmem⟩
  have inRest : ∀ (p : Pattern) (ps : Group),
      (s ∈ ps.statements → ∃ befores inner, ps.Inside befores inner ∧ .statement s ∈ inner) →
      s ∈ ps.statements →
      ∃ befores inner, Group.Inside (p :: ps) befores inner ∧ .statement s ∈ inner := by
    intro p ps ih hs
    obtain ⟨befores, inner, hin, hmem⟩ := ih hs
    exact hin.cons p hmem
  induction g using Group.by_patterns with
  | nil => cases h
  | statement t ps ih =>
    rw [statements_statement] at h
    rcases List.mem_cons.1 h with rfl | h
    · exact ⟨[], _, .here _, List.mem_cons_self⟩
    · exact inRest _ ps ih h
  | optional g ps ihg ih =>
    rw [statements_optional] at h
    rcases List.mem_append.1 h with h | h
    · exact inFirst _ ps g (.optional g) ihg h
    · exact inRest _ ps ih h
  | union gs ps ihg ih =>
    rw [statements_union] at h
    rcases List.mem_append.1 h with h | h
    · obtain ⟨g, hg, h⟩ := List.mem_flatMap.1 h
      exact inFirst _ ps g (.union hg) (ihg g hg) h
    · exact inRest _ ps ih h
  | filter e ps ih =>
    rw [statements_filter] at h
    exact inRest _ ps ih h
  | minus g ps ihg ih =>
    rw [statements_minus] at h
    rcases List.mem_append.1 h with h | h
    · exact inFirst _ ps g (.minus g) ihg h
    · exact inRest _ ps ih h

/-! ## Replacing entities -/

namespace Pattern

theorem maps_eq_map (f : Entity → Entity) (g : Group) : maps f g = g.map (·.map f) := by
  induction g with
  | nil => rfl
  | cons p ps ih => rw [maps, ih, List.map_cons]

theorem mapGroups_eq_map (f : Entity → Entity) (gs : List Group) :
    mapGroups f gs = gs.map (maps f) := by
  induction gs with
  | nil => rfl
  | cons g gs ih => rw [mapGroups, ih, List.map_cons]

theorem groups_map (f : Entity → Entity) (p : Pattern) :
    (p.map f).groups = p.groups.map (maps f) := by
  cases p with
  | union gs => simp [map, groups, mapGroups_eq_map]
  | _ => simp [map, groups]

end Pattern

/-- What stands in a group with its entities replaced has replaced what stood there. -/
theorem Group.Has.exists_of_maps {f : Entity → Entity} {g : Group} {p : Pattern}
    (h : Has (Pattern.maps f g) p) : ∃ origin, g.Has origin ∧ origin.map f = p := by
  generalize heq : Pattern.maps f g = mapped at h
  induction h generalizing g with
  | here hp =>
    rw [← heq, Pattern.maps_eq_map, List.mem_map] at hp
    obtain ⟨origin, horigin, hmap⟩ := hp
    exact ⟨origin, .here horigin, hmap⟩
  | inside hq hinner _ ih =>
    rw [← heq, Pattern.maps_eq_map, List.mem_map] at hq
    obtain ⟨q, hq, rfl⟩ := hq
    rw [Pattern.groups_map, List.mem_map] at hinner
    obtain ⟨inner, hinner, hmap⟩ := hinner
    obtain ⟨origin, horigin, hpattern⟩ := ih hmap
    exact ⟨origin, .inside hq hinner horigin, hpattern⟩

end OntoQuery
