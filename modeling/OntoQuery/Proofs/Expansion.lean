import OntoQuery.Proofs.Flattening
import OntoQuery.Proofs.Steps
import OntoQuery.Storage.Query

/-!
# How expansion goes through a body

Expansion goes from left to right and carries two things along: the variables that are marked, which
go down into groups and never up again, and the number of numbered nodes, which goes everywhere. The
lemmas here say what a successful run makes of a statement (`Expands`, and `Writes` for the single
statements that can come out of it), of a pattern (`expandPattern_ok`) and of two groups in a row
(`expandGroup_append_ok`).

A `Site` is a group as expansion comes to it. `Expander.Reaches` leads from a site to those inside
it, at any depth, with what has been written by then in each group on the way; `reaches_inside`
finds what becomes of the inner group at that place of what becomes of the outer one, and
`exists_reaches` finds every group. Where the state does not matter, `Expander.Becomes` leaves it
out.
-/

namespace OntoQuery

namespace Expander
variable (x : Expander)

/-- The variables marked after a pattern. -/
def mark (marked : List Variable) : Pattern → List Variable
  | .statement s => marked ++ x.unmarked marked s
  | _ => marked

/-- The variables marked after the patterns of a group. -/
def marks (marked : List Variable) (g : Group) : List Variable :=
  g.foldl x.mark marked

/-- The markers of resource variables, as patterns. -/
def markers (vs : List Variable) : Group :=
  vs.map fun v => .statement (.deletionMarker (.var v))

theorem node_not_literal (s : Statement) (n : Nat) : (x.node s n).1.isLiteral = false := by
  unfold node
  split
  · rename_i hobject
    unfold objectIsNode at hobject
    simp only [Bool.and_eq_true, Bool.not_eq_true'] at hobject
    exact hobject.1
  · split <;> rfl

/-- A value node is the object, or is named after the statement. -/
theorem node_eq_var {s : Statement} {n : Nat} {v : Variable} (h : (x.node s n).1 = .var v) :
    s.object = .var v ∨ ∃ index, v = .valueNode s.subject s.predicate s.object index := by
  unfold node at h
  split at h
  · exact .inl h
  · split at h
    · cases h
      exact .inr ⟨0, rfl⟩
    · cases h
      exact .inr ⟨n + 1, rfl⟩

theorem content_ok {s : Statement} {node : Entity} {p : Pattern} :
    x.content s node = .ok p ↔
      ∃ kind, (x.contentType? s.object).bind ValueKind.ofType? = some kind ∧
        kind.hasLiteralContent = true ∧
          p = .triple node (.ofIri kind.contentPredicate) s.object := by
  unfold Expander.content
  cases htype : x.contentType? s.object with
  | none => simp
  | some type =>
    cases hkind : ValueKind.ofType? type with
    | none => simp [hkind]
    | some kind => cases hliteral : kind.hasLiteralContent <;> simp [hkind, hliteral, @eq_comm _ p]

theorem expandLink_ok {s : Statement} {property : Iri} {made : Group} :
    x.expandLink s property = .ok made ↔
      ∃ linkValueProperty, x.ontology.linkValueProperty? property = some linkValueProperty ∧
        s.object.isLiteral = false ∧ made =
          [.statement s,
           .triple s.subject (.ofIri linkValueProperty)
             (.var (.linkValue s.subject property s.object)),
           .triple (.var (.linkValue s.subject property s.object)) (.ofIri Rdf.object) s.object,
           .statement (.deletionMarker (.var (.linkValue s.subject property s.object)))] := by
  unfold expandLink
  cases x.ontology.linkValueProperty? property with
  | none => simp
  | some linkValueProperty => cases s.object.isLiteral <;> simp [@eq_comm _ made]

/-- What a statement becomes, and how many nodes are numbered after it if `n` are before: one case
for each way in which it can lead to its object. -/
inductive Expands (s : Statement) (n : Nat) : Group → Nat → Prop where
  | direct : x.passage s = .ok .direct → Expands s n [.statement s] n
  | node : x.passage s = .ok .value → x.objectIsNode s = true →
    Expands s n (.triple s.subject s.predicate (x.node s n).1 :: current (x.node s n).1)
      (x.node s n).2
  | content {kind : ValueKind} : x.passage s = .ok .value → x.objectIsNode s = false →
    (x.contentType? s.object).bind ValueKind.ofType? = some kind → kind.hasLiteralContent = true →
    Expands s n
      (.triple s.subject s.predicate (x.node s n).1 :: current (x.node s n).1 ++
        [.triple (x.node s n).1 (.ofIri kind.contentPredicate) s.object])
      (x.node s n).2
  | link {property linkValueProperty : Iri} : x.passage s = .ok (.link property) →
    x.ontology.linkValueProperty? property = some linkValueProperty → s.object.isLiteral = false →
    Expands s n
      [.statement s,
       .triple s.subject (.ofIri linkValueProperty) (.var (.linkValue s.subject property s.object)),
       .triple (.var (.linkValue s.subject property s.object)) (.ofIri Rdf.object) s.object,
       .statement (.deletionMarker (.var (.linkValue s.subject property s.object)))]
      n

theorem expands_of_ok {s : Statement} {n k : Nat} {made : Group}
    (h : x.expandStatement s n = .ok (made, k)) : x.Expands s n made k := by
  rw [expandStatement] at h
  obtain ⟨passage, hpassage, h⟩ := bind_eq_ok.1 h
  cases passage with
  | direct =>
    cases pure_eq_ok.1 h
    exact .direct hpassage
  | value =>
    dsimp only [expandValue] at h
    split at h
    · rename_i hnode
      cases pure_eq_ok.1 h
      exact .node hpassage hnode
    · rename_i hnode
      obtain ⟨content, hcontent, h⟩ := bind_eq_ok.1 h
      cases pure_eq_ok.1 h
      obtain ⟨kind, hkind, hliteral, rfl⟩ := x.content_ok.1 hcontent
      exact .content hpassage (by simpa using hnode) hkind hliteral
  | link property =>
    obtain ⟨linked, hlinked, h⟩ := bind_eq_ok.1 h
    cases pure_eq_ok.1 h
    obtain ⟨linkValueProperty, hproperty, hliteral, rfl⟩ := x.expandLink_ok.1 hlinked
    exact .link hpassage hproperty hliteral

/-- **What a successful run makes of a statement.** -/
theorem expandStatement_eq_ok {s : Statement} {n k : Nat} {made : Group} :
    x.expandStatement s n = .ok (made, k) ↔ x.Expands s n made k := by
  refine ⟨x.expands_of_ok, fun h => ?_⟩
  rw [expandStatement]
  cases h with
  | direct hp => exact bind_eq_ok.2 ⟨_, hp, rfl⟩
  | node hp hnode =>
    refine bind_eq_ok.2 ⟨_, hp, ?_⟩
    dsimp only [expandValue]
    rw [if_pos hnode]
    rfl
  | @content kind hp hnode hkind hliteral =>
    refine bind_eq_ok.2 ⟨_, hp, ?_⟩
    dsimp only [expandValue]
    rw [if_neg (by simp [hnode])]
    exact bind_eq_ok.2 ⟨_, x.content_ok.2 ⟨kind, hkind, hliteral, rfl⟩, rfl⟩
  | link hp hproperty hliteral =>
    exact bind_eq_ok.2 ⟨_, hp,
      bind_eq_ok.2 ⟨_, x.expandLink_ok.2 ⟨_, hproperty, hliteral, rfl⟩, rfl⟩⟩

/-- The same with the two ways to the object of a value in one: its node comes first in both. -/
theorem expandStatement_ok {s : Statement} {n k : Nat} {made : Group}
    (h : x.expandStatement s n = .ok (made, k)) :
    (x.passage s = .ok .direct ∧ made = [.statement s]) ∨
    (x.passage s = .ok .value ∧ ∃ rest,
      made = .triple s.subject s.predicate (x.node s n).1 :: current (x.node s n).1 ++ rest ∧
      (rest = [] ∨ ∃ kind : ValueKind,
        rest = [.triple (x.node s n).1 (.ofIri kind.contentPredicate) s.object])) ∨
    ∃ property linkValueProperty, x.passage s = .ok (.link property) ∧ s.object.isLiteral = false ∧
      made =
        [.statement s,
         .triple s.subject (.ofIri linkValueProperty)
           (.var (.linkValue s.subject property s.object)),
         .triple (.var (.linkValue s.subject property s.object)) (.ofIri Rdf.object) s.object,
         .statement (.deletionMarker (.var (.linkValue s.subject property s.object)))] := by
  cases x.expandStatement_eq_ok.1 h with
  | direct hp => exact .inl ⟨hp, rfl⟩
  | node hp => exact .inr (.inl ⟨hp, [], (List.append_nil _).symm, .inl rfl⟩)
  | @content kind hp => exact .inr (.inl ⟨hp, _, rfl, .inr ⟨kind, rfl⟩⟩)
  | link hp _ hliteral => exact .inr (.inr ⟨_, _, hp, hliteral, rfl⟩)

/-- What a value statement becomes holds the conditions on its node. -/
theorem current_subset {s : Statement} {n k : Nat} {made : Group} (hs : x.passage s = .ok .value)
    (h : x.expandStatement s n = .ok (made, k)) : current (x.node s n).1 ⊆ made := by
  obtain ⟨hd, _⟩ | ⟨_, rest, rfl, _⟩ | ⟨_, _, hl, _⟩ := x.expandStatement_ok h
  · cases hs.symm.trans hd
  · exact List.subset_append_of_subset_left _ (List.subset_cons_self _ _)
  · cases hs.symm.trans hl

/-- The statements that a statement can become, when `n` nodes are numbered before it. -/
inductive Writes (s : Statement) (n : Nat) : Statement → Prop where
  | direct : x.passage s = .ok .direct → Writes s n s
  | toNode : x.passage s = .ok .value → Writes s n ⟨s.subject, s.predicate, (x.node s n).1⟩
  | undeletedNode : x.passage s = .ok .value → Writes s n (.deletionMarker (x.node s n).1)
  | newerNode : x.passage s = .ok .value →
    Writes s n ⟨.var (.newerVersion (x.node s n).1), .ofIri Base.previousValue, (x.node s n).1⟩
  | content (kind : ValueKind) : x.passage s = .ok .value →
    Writes s n ⟨(x.node s n).1, .ofIri kind.contentPredicate, s.object⟩
  | link {property : Iri} : x.passage s = .ok (.link property) → s.object.isLiteral = false →
    Writes s n s
  | toLink {property : Iri} (linkValueProperty : Iri) : x.passage s = .ok (.link property) →
    Writes s n
      ⟨s.subject, .ofIri linkValueProperty, .var (.linkValue s.subject property s.object)⟩
  | linkObject {property : Iri} : x.passage s = .ok (.link property) →
    Writes s n ⟨.var (.linkValue s.subject property s.object), .ofIri Rdf.object, s.object⟩
  | undeletedLink {property : Iri} : x.passage s = .ok (.link property) →
    Writes s n (.deletionMarker (.var (.linkValue s.subject property s.object)))

theorem writes_of_expandStatement {s t : Statement} {n k : Nat} {made : Group}
    (h : x.expandStatement s n = .ok (made, k)) (ht : t ∈ made.statements) : x.Writes s n t := by
  obtain ⟨hp, rfl⟩ | ⟨hp, rest, rfl, hrest⟩ | ⟨property, linkValueProperty, hp, hobject, rfl⟩ :=
    x.expandStatement_ok h
  · rw [Group.statements_statement, Group.statements_nil, List.mem_singleton] at ht
    subst ht
    exact .direct hp
  · rw [Group.statements_append, List.mem_append] at ht
    rcases ht with ht | ht
    · simp only [current, Pattern.triple, Group.statements_statement, Group.statements_optional,
        Group.statements_filter, Group.statements_nil, List.append_nil, List.mem_cons,
        List.not_mem_nil, or_false] at ht
      obtain rfl | rfl | rfl := ht
      · exact .toNode hp
      · exact .undeletedNode hp
      · exact .newerNode hp
    · obtain rfl | ⟨kind, rfl⟩ := hrest
      · cases ht
      · rw [Pattern.triple, Group.statements_statement, Group.statements_nil,
          List.mem_singleton] at ht
        subst ht
        exact .content kind hp
  · simp only [Pattern.triple, Group.statements_statement, Group.statements_nil, List.mem_cons,
      List.not_mem_nil, or_false] at ht
    obtain rfl | rfl | rfl | rfl := ht
    · exact .link hp hobject
    · exact .toLink linkValueProperty hp
    · exact .linkObject hp
    · exact .undeletedLink hp

/-- A variable of what is written stands in the statement, or is its node, the newer version of
that, or its link. -/
theorem Writes.mentions_cases {x : Expander} {s t : Statement} {n : Nat} (h : x.Writes s n t)
    {v : Variable} (hv : t.mentions v = true) :
    s.mentions v = true ∨
    x.passage s = .ok .value ∧ ((x.node s n).1 = .var v ∨ v = .newerVersion (x.node s n).1) ∨
    ∃ property, x.passage s = .ok (.link property) ∧
      v = .linkValue s.subject property s.object := by
  have hlink {property : Iri} (h : .var (.linkValue s.subject property s.object) = Entity.var v) :
      v = .linkValue s.subject property s.object := (Entity.var.inj h).symm
  rw [Statement.mentions_eq_true] at hv ⊢
  cases h with
  | direct => exact .inl hv
  | toNode hp =>
    rcases hv with hv | hv | hv
    · exact .inl (.inl hv)
    · exact .inl (.inr (.inl hv))
    · exact .inr (.inl ⟨hp, .inl hv⟩)
  | undeletedNode hp =>
    rcases hv with hv | hv | hv
    · exact .inr (.inl ⟨hp, .inl hv⟩)
    · cases hv
    · cases hv
  | newerNode hp =>
    rcases hv with hv | hv | hv
    · exact .inr (.inl ⟨hp, .inr (Entity.var.inj hv).symm⟩)
    · cases hv
    · exact .inr (.inl ⟨hp, .inl hv⟩)
  | content kind hp =>
    rcases hv with hv | hv | hv
    · exact .inr (.inl ⟨hp, .inl hv⟩)
    · cases hv
    · exact .inl (.inr (.inr hv))
  | link => exact .inl hv
  | toLink _ hp =>
    rcases hv with hv | hv | hv
    · exact .inl (.inl hv)
    · cases hv
    · exact .inr (.inr ⟨_, hp, hlink hv⟩)
  | linkObject hp =>
    rcases hv with hv | hv | hv
    · exact .inr (.inr ⟨_, hp, hlink hv⟩)
    · cases hv
    · exact .inl (.inr (.inr hv))
  | undeletedLink hp =>
    rcases hv with hv | hv | hv
    · exact .inr (.inr ⟨_, hp, hlink hv⟩)
    · cases hv
    · cases hv

/-- What a pattern becomes in a successful run. -/
theorem expandPattern_ok {p : Pattern} {marked marked' : List Variable} {n k : Nat} {out : Group}
    (h : x.expandPattern p marked n = .ok (out, marked', k)) :
    marked' = x.mark marked p ∧
    match p with
    | .statement s => ∃ made, x.expandStatement s n = .ok (made, k) ∧
        out = made ++ markers (x.unmarked marked s)
    | .optional g => ∃ inner, x.expandGroup g marked n = .ok (inner, k) ∧ out = [.optional inner]
    | .union gs => ∃ inners, x.expandGroups gs marked n = .ok (inners, k) ∧ out = [.union inners]
    | .filter e => k = n ∧ out = [.filter e]
    | .minus g => ∃ inner, x.expandGroup g marked n = .ok (inner, k) ∧ out = [.minus inner] := by
  cases p with
  | statement s =>
    rw [expandPattern] at h
    obtain ⟨⟨made, k'⟩, hmade, h⟩ := bind_eq_ok.1 h
    cases pure_eq_ok.1 h
    exact ⟨rfl, made, hmade, rfl⟩
  | optional g =>
    rw [expandPattern] at h
    obtain ⟨⟨inner, k'⟩, hinner, h⟩ := bind_eq_ok.1 h
    cases pure_eq_ok.1 h
    exact ⟨rfl, inner, hinner, rfl⟩
  | union gs =>
    rw [expandPattern] at h
    obtain ⟨⟨inners, k'⟩, hinners, h⟩ := bind_eq_ok.1 h
    cases pure_eq_ok.1 h
    exact ⟨rfl, inners, hinners, rfl⟩
  | filter e =>
    rw [expandPattern] at h
    cases h
    exact ⟨rfl, rfl, rfl⟩
  | minus g =>
    rw [expandPattern] at h
    obtain ⟨⟨inner, k'⟩, hinner, h⟩ := bind_eq_ok.1 h
    cases pure_eq_ok.1 h
    exact ⟨rfl, inner, hinner, rfl⟩

variable {x}

theorem expandGroup_cons_ok {p : Pattern} {ps : Group} {marked : List Variable} {n k : Nat}
    {out : Group} : x.expandGroup (p :: ps) marked n = .ok (out, k) ↔
      ∃ first n' rest, x.expandPattern p marked n = .ok (first, x.mark marked p, n') ∧
        x.expandGroup ps (x.mark marked p) n' = .ok (rest, k) ∧ out = first ++ rest := by
  rw [expandGroup]
  constructor
  · intro h
    obtain ⟨⟨first, marked', n'⟩, hfirst, h⟩ := bind_eq_ok.1 h
    obtain ⟨⟨rest, k'⟩, hrest, h⟩ := bind_eq_ok.1 h
    cases pure_eq_ok.1 h
    obtain ⟨rfl, _⟩ := x.expandPattern_ok hfirst
    exact ⟨first, n', rest, hfirst, hrest, rfl⟩
  · rintro ⟨first, n', rest, hfirst, hrest, rfl⟩
    exact bind_eq_ok.2 ⟨_, hfirst, bind_eq_ok.2 ⟨_, hrest, rfl⟩⟩

/-- A group is expanded by expanding its first part and then, with what is marked there, the
rest. -/
theorem expandGroup_append_ok {g g' : Group} {marked : List Variable} {n k : Nat} {out : Group} :
    x.expandGroup (g ++ g') marked n = .ok (out, k) ↔
      ∃ first n' rest, x.expandGroup g marked n = .ok (first, n') ∧
        x.expandGroup g' (x.marks marked g) n' = .ok (rest, k) ∧ out = first ++ rest := by
  induction g generalizing marked n out with
  | nil =>
    constructor
    · intro h
      exact ⟨[], n, out, by rw [expandGroup], h, rfl⟩
    · rintro ⟨first, n', rest, hfirst, hrest, rfl⟩
      rw [expandGroup] at hfirst
      cases hfirst
      exact hrest
  | cons p ps ih =>
    rw [List.cons_append, expandGroup_cons_ok]
    constructor
    · rintro ⟨first, n', rest, hfirst, hrest, rfl⟩
      obtain ⟨middle, n'', last, hmiddle, hlast, rfl⟩ := ih.1 hrest
      exact ⟨first ++ middle, n'', last,
        expandGroup_cons_ok.2 ⟨first, n', middle, hfirst, hmiddle, rfl⟩, hlast,
        by rw [List.append_assoc]⟩
    · rintro ⟨whole, n'', last, hwhole, hlast, rfl⟩
      obtain ⟨first, n', middle, hfirst, hmiddle, rfl⟩ := expandGroup_cons_ok.1 hwhole
      exact ⟨first, n', middle ++ last, hfirst, ih.2 ⟨middle, n'', last, hmiddle, hlast, rfl⟩,
        by rw [List.append_assoc]⟩

/-- A statement in a group is expanded, and its variables marked, after what is before it. -/
theorem expandGroup_statement_ok {before after : Group} {s : Statement} {marked : List Variable}
    {n k : Nat} {out : Group}
    (h : x.expandGroup (before ++ .statement s :: after) marked n = .ok (out, k)) :
    ∃ written n' own n'' later, x.expandGroup before marked n = .ok (written, n') ∧
      x.expandStatement s n' = .ok (own, n'') ∧
      x.expandGroup after (x.marks marked before ++ x.unmarked (x.marks marked before) s) n'' =
        .ok (later, k) ∧
      out = written ++ (own ++ (markers (x.unmarked (x.marks marked before) s) ++ later)) := by
  obtain ⟨written, n', rest, hwritten, hrest, rfl⟩ := expandGroup_append_ok.1 h
  obtain ⟨_, n'', later, hpattern, hlater, rfl⟩ := expandGroup_cons_ok.1 hrest
  obtain ⟨_, own, hown, rfl⟩ := x.expandPattern_ok hpattern
  exact ⟨written, n', own, n'', later, hwritten, hown, hlater, by rw [List.append_assoc]⟩

theorem expandGroups_cons_ok {g : Group} {gs : List Group} {marked : List Variable} {n k : Nat}
    {outs : List Group} : x.expandGroups (g :: gs) marked n = .ok (outs, k) ↔
      ∃ inner n' inners, x.expandGroup g marked n = .ok (inner, n') ∧
        x.expandGroups gs marked n' = .ok (inners, k) ∧ outs = inner :: inners := by
  rw [expandGroups]
  constructor
  · intro h
    obtain ⟨⟨inner, n'⟩, hinner, h⟩ := bind_eq_ok.1 h
    obtain ⟨⟨inners, k'⟩, hinners, h⟩ := bind_eq_ok.1 h
    cases pure_eq_ok.1 h
    exact ⟨inner, n', inners, hinner, hinners, rfl⟩
  · rintro ⟨inner, n', inners, hinner, hinners, rfl⟩
    exact bind_eq_ok.2 ⟨_, hinner, bind_eq_ok.2 ⟨_, hinners, rfl⟩⟩

/-- The groups of a union are expanded one by one, with the same variables marked. -/
theorem expandGroups_mem_ok {earlier later : List Group} {g : Group} {marked : List Variable}
    {n k : Nat} {outs : List Group}
    (h : x.expandGroups (earlier ++ g :: later) marked n = .ok (outs, k)) :
    ∃ before n' inner n'', x.expandGroups earlier marked n = .ok (before, n') ∧
      x.expandGroup g marked n' = .ok (inner, n'') ∧ inner ∈ outs := by
  induction earlier generalizing n outs with
  | nil =>
    rw [List.nil_append, expandGroups] at h
    obtain ⟨⟨inner, n'⟩, hinner, h⟩ := bind_eq_ok.1 h
    obtain ⟨⟨rest, k'⟩, _, h⟩ := bind_eq_ok.1 h
    cases pure_eq_ok.1 h
    exact ⟨[], n, inner, n', by rw [expandGroups], hinner, List.mem_cons_self⟩
  | cons e es ih =>
    rw [List.cons_append, expandGroups] at h
    obtain ⟨⟨first, n'⟩, hfirst, h⟩ := bind_eq_ok.1 h
    obtain ⟨⟨rest, k'⟩, hrest, h⟩ := bind_eq_ok.1 h
    cases pure_eq_ok.1 h
    obtain ⟨before, m, inner, m', hbefore, hinner, hmem⟩ := ih hrest
    refine ⟨first :: before, m, inner, m', ?_, hinner, List.mem_cons_of_mem _ hmem⟩
    rw [expandGroups]
    exact bind_eq_ok.2 ⟨_, hfirst, bind_eq_ok.2 ⟨_, hbefore, rfl⟩⟩

end Expander

/-! ## Where expansion comes to a group -/

/-- A group as expansion comes to it: with the variables that are marked around it and before it,
and the number of nodes numbered so far. -/
structure Site where
  group : Group
  marked : List Variable
  numbered : Nat

namespace Expander

/-- What a group becomes at its site. -/
def expandSite (x : Expander) (site : Site) : Except Fault (Group × Nat) :=
  x.expandGroup site.group site.marked site.numbered

/-- Expansion of the first site goes into the second, a group right inside it, after it has written
something for the patterns before. -/
inductive Enters (x : Expander) : Site → Group → Site → Prop where
  | optional {before after g written : Group} {marked : List Variable} {n n' : Nat} :
    x.expandGroup before marked n = .ok (written, n') →
      Enters x ⟨before ++ .optional g :: after, marked, n⟩ written ⟨g, x.marks marked before, n'⟩
  | union {before after g written : Group} {earlier later outs : List Group}
      {marked : List Variable} {n n' n'' : Nat} :
    x.expandGroup before marked n = .ok (written, n') →
    x.expandGroups earlier (x.marks marked before) n' = .ok (outs, n'') →
      Enters x ⟨before ++ .union (earlier ++ g :: later) :: after, marked, n⟩ written
        ⟨g, x.marks marked before, n''⟩
  | minus {before after g written : Group} {marked : List Variable} {n n' : Nat} :
    x.expandGroup before marked n = .ok (written, n') →
      Enters x ⟨before ++ .minus g :: after, marked, n⟩ written ⟨g, x.marks marked before, n'⟩

/-- Expansion of the first site comes to the second, which is the same or inside it at any depth.
For each group on the way, from the outermost on, there is what has been written in it by then. -/
inductive Reaches (x : Expander) : Site → List Group → Site → Prop where
  | here (site : Site) : Reaches x site [] site
  | into {outer middle inner : Site} {written : Group} {others : List Group} :
    Enters x outer written middle → Reaches x middle others inner →
      Reaches x outer (written :: others) inner

variable {x : Expander}

theorem enters_inside {outer inner : Site} {written : Group} (h : x.Enters outer written inner)
    {out : Group} {k : Nat} (hout : x.expandSite outer = .ok (out, k)) :
    ∃ made k' p after, x.expandSite inner = .ok (made, k') ∧ p.Opens made ∧
      out = written ++ p :: after := by
  cases h with
  | optional hbefore =>
    obtain ⟨_, _, _, hfirst, hrest, rfl⟩ := expandGroup_append_ok.1 hout
    cases hbefore.symm.trans hfirst
    obtain ⟨_, _, _, hp, _, rfl⟩ := expandGroup_cons_ok.1 hrest
    obtain ⟨_, made, hmade, rfl⟩ := x.expandPattern_ok hp
    exact ⟨made, _, _, _, hmade, .optional made, rfl⟩
  | union hbefore hearlier =>
    obtain ⟨_, _, _, hfirst, hrest, rfl⟩ := expandGroup_append_ok.1 hout
    cases hbefore.symm.trans hfirst
    obtain ⟨_, _, _, hp, _, rfl⟩ := expandGroup_cons_ok.1 hrest
    obtain ⟨_, mades, hmades, rfl⟩ := x.expandPattern_ok hp
    obtain ⟨_, _, made, _, he, hmade, hmem⟩ := expandGroups_mem_ok hmades
    cases hearlier.symm.trans he
    exact ⟨made, _, _, _, hmade, .union hmem, rfl⟩
  | minus hbefore =>
    obtain ⟨_, _, _, hfirst, hrest, rfl⟩ := expandGroup_append_ok.1 hout
    cases hbefore.symm.trans hfirst
    obtain ⟨_, _, _, hp, _, rfl⟩ := expandGroup_cons_ok.1 hrest
    obtain ⟨_, made, hmade, rfl⟩ := x.expandPattern_ok hp
    exact ⟨made, _, _, _, hmade, .minus made, rfl⟩

/-- What becomes of a group inside stands inside what becomes of the group around it, after what was
written before. -/
theorem reaches_inside {outer inner : Site} {others : List Group} (h : x.Reaches outer others inner)
    {out : Group} {k : Nat} (hout : x.expandSite outer = .ok (out, k)) :
    ∃ made k', x.expandSite inner = .ok (made, k') ∧ out.Inside others made := by
  induction h generalizing out k with
  | here site => exact ⟨out, k, hout, .here out⟩
  | into he _ ih =>
    obtain ⟨middle, k', p, after, hmiddle, hp, rfl⟩ := enters_inside he hout
    obtain ⟨made, k'', hmade, hinside⟩ := ih hmiddle
    exact ⟨made, k'', hmade, .into hp hinside⟩

/-- What is written for some patterns, in a run of whatever state. -/
def Becomes (x : Expander) (g written : Group) : Prop :=
  ∃ marked n k, x.expandGroup g marked n = .ok (written, k)

theorem exists_enters {before after g : Group} {p : Pattern} (hp : p.Opens g)
    {marked : List Variable} {n : Nat} {out : Group} {k : Nat}
    (hout : x.expandGroup (before ++ p :: after) marked n = .ok (out, k)) :
    ∃ written inner, x.Enters ⟨before ++ p :: after, marked, n⟩ written inner ∧ inner.group = g ∧
      x.Becomes before written := by
  obtain ⟨written, n', rest, hwritten, hrest, rfl⟩ := expandGroup_append_ok.1 hout
  cases hp with
  | optional g => exact ⟨written, _, .optional hwritten, rfl, _, _, _, hwritten⟩
  | minus g => exact ⟨written, _, .minus hwritten, rfl, _, _, _, hwritten⟩
  | union hg =>
    obtain ⟨earlier, later, rfl⟩ := List.append_of_mem hg
    obtain ⟨_, _, _, hunion, _, rfl⟩ := expandGroup_cons_ok.1 hrest
    obtain ⟨_, mades, hmades, rfl⟩ := x.expandPattern_ok hunion
    obtain ⟨_, _, _, _, he, _, _⟩ := expandGroups_mem_ok hmades
    exact ⟨written, _, .union hwritten he, rfl, _, _, _, hwritten⟩

/-- **A successful run comes to every group**, at its place. -/
theorem exists_reaches {g inner : Group} {befores : List Group} (h : g.Inside befores inner)
    {marked : List Variable} {n : Nat} {out : Group} {k : Nat}
    (hout : x.expandGroup g marked n = .ok (out, k)) :
    ∃ others site, x.Reaches ⟨g, marked, n⟩ others site ∧ site.group = inner ∧
      List.Forall₂ x.Becomes befores others := by
  induction h generalizing marked n out k with
  | here g => exact ⟨[], _, .here _, rfl, .nil⟩
  | into hp _ ih =>
    obtain ⟨written, middle, he, rfl, hwritten⟩ := exists_enters hp hout
    obtain ⟨made, k', _, _, hmade, _, _⟩ := enters_inside he hout
    obtain ⟨others, site, hr, hsite, hothers⟩ := ih hmade
    exact ⟨written :: others, site, .into he hr, hsite, .cons hwritten hothers⟩

/-! ## What becomes of a group, whatever the state -/

theorem becomes_of_expandGroups {gs outs : List Group} {marked : List Variable} {n k : Nat}
    (h : x.expandGroups gs marked n = .ok (outs, k)) : List.Forall₂ x.Becomes gs outs := by
  induction gs generalizing n outs with
  | nil =>
    rw [expandGroups] at h
    cases h
    exact .nil
  | cons g gs ih =>
    rw [expandGroups] at h
    obtain ⟨⟨out, n'⟩, hout, h⟩ := bind_eq_ok.1 h
    obtain ⟨⟨rest, k'⟩, hrest, h⟩ := bind_eq_ok.1 h
    cases pure_eq_ok.1 h
    exact .cons ⟨marked, n, n', hout⟩ (ih hrest)

theorem becomes_nil {out : Group} (h : x.Becomes [] out) : out = [] := by
  obtain ⟨marked, n, k, h⟩ := h
  rw [expandGroup] at h
  cases h
  rfl

/-- What becomes of a group is what becomes of its first pattern and of the others. -/
theorem becomes_cons {p : Pattern} {ps out : Group} (h : x.Becomes (p :: ps) out) :
    ∃ first rest, out = first ++ rest ∧ x.Becomes ps rest ∧
    match p with
    | .statement s => ∃ n made k marked, x.expandStatement s n = .ok (made, k) ∧
        first = made ++ markers (x.unmarked marked s)
    | .optional g => ∃ inner, x.Becomes g inner ∧ first = [.optional inner]
    | .union gs => ∃ inners, List.Forall₂ x.Becomes gs inners ∧ first = [.union inners]
    | .filter e => first = [.filter e]
    | .minus g => ∃ inner, x.Becomes g inner ∧ first = [.minus inner] := by
  obtain ⟨marked, n, k, h⟩ := h
  obtain ⟨first, n', rest, hfirst, hrest, rfl⟩ := expandGroup_cons_ok.1 h
  refine ⟨first, rest, rfl, ⟨_, _, _, hrest⟩, ?_⟩
  have hp := (x.expandPattern_ok hfirst).2
  cases p with
  | statement s =>
    obtain ⟨made, hmade, hfirst⟩ := hp
    exact ⟨n, made, n', marked, hmade, hfirst⟩
  | optional g =>
    obtain ⟨inner, hinner, hfirst⟩ := hp
    exact ⟨inner, ⟨marked, n, n', hinner⟩, hfirst⟩
  | union gs =>
    obtain ⟨inners, hinners, hfirst⟩ := hp
    exact ⟨inners, becomes_of_expandGroups hinners, hfirst⟩
  | filter e => exact hp.2
  | minus g =>
    obtain ⟨inner, hinner, hfirst⟩ := hp
    exact ⟨inner, ⟨marked, n, n', hinner⟩, hfirst⟩

end Expander

end OntoQuery
