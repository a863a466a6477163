import OntoQuery.Proofs.Expansion

/-!
# Where resources are marked

A resource variable gets a deletion marker after the statement where it first stands, unless a group
around has marked it before. `marker_of_reaches` says that nothing is missed: of every resource
variable in a group there is a marker in what becomes of the group, or earlier in what becomes of
one around it. `exists_pieces` says that nothing is marked twice in a group.
-/

namespace OntoQuery

/-- The deletion marker of a variable, as a pattern. -/
def Pattern.marker (v : Variable) : Pattern :=
  .statement (.deletionMarker (.var v))

namespace Expander
variable {x : Expander}

theorem mem_markers {v : Variable} {vs : List Variable} (h : v ∈ vs) : .marker v ∈ markers vs :=
  List.mem_map.2 ⟨v, h, rfl⟩

/-! ## The marked variables -/

theorem mem_unmarked {marked : List Variable} {s : Statement} {v : Variable} :
    v ∈ x.unmarked marked s ↔ s.Joins v ∧ x.types.isResource (.var v) = true ∧ v ∉ marked := by
  simp only [unmarked, List.mem_filter, List.mem_eraseDups, List.mem_filterMap, Entity.var?_eq_some,
    List.mem_cons, List.not_mem_nil, or_false, decide_eq_true_eq, Statement.Joins]
  constructor
  · rintro ⟨⟨_, ⟨rfl | rfl, hr⟩, he⟩, hmarked⟩
    · exact ⟨.inl he, he ▸ hr, hmarked⟩
    · exact ⟨.inr he, he ▸ hr, hmarked⟩
  · rintro ⟨he | he, hr, hmarked⟩
    · exact ⟨⟨_, ⟨.inl rfl, he ▸ hr⟩, he⟩, hmarked⟩
    · exact ⟨⟨_, ⟨.inr rfl, he ▸ hr⟩, he⟩, hmarked⟩

theorem nodup_unmarked (marked : List Variable) (s : Statement) : (x.unmarked marked s).Nodup :=
  (nodup_eraseDups _).filter _

theorem subset_mark (marked : List Variable) (p : Pattern) : marked ⊆ x.mark marked p := by
  cases p with
  | statement s => exact List.subset_append_left _ _
  | optional g => exact List.Subset.refl _
  | union gs => exact List.Subset.refl _
  | filter e => exact List.Subset.refl _
  | minus g => exact List.Subset.refl _

theorem subset_marks (marked : List Variable) (g : Group) : marked ⊆ x.marks marked g := by
  induction g generalizing marked with
  | nil => exact List.Subset.refl _
  | cons p ps ih => exact List.Subset.trans (subset_mark marked p) (ih (x.mark marked p))

/-- Every resource variable of a group is marked after the group. -/
theorem mem_marks {marked : List Variable} {g : Group} {s : Statement} (hs : .statement s ∈ g)
    {v : Variable} (hv : s.Joins v) (hr : x.types.isResource (.var v) = true) :
    v ∈ x.marks marked g := by
  obtain ⟨before, after, rfl⟩ := List.append_of_mem hs
  rw [marks, List.foldl_append, List.foldl_cons]
  apply subset_marks
  by_cases hmarked : v ∈ x.marks marked before
  · exact List.mem_append_left _ hmarked
  · exact List.mem_append_right _ (mem_unmarked.2 ⟨hv, hr, hmarked⟩)

/-- A variable that is marked after a group was so before, or is marked in what the group
becomes. -/
theorem marker_of_mem_marks {g : Group} {marked : List Variable} {n k : Nat} {out : Group}
    (h : x.expandGroup g marked n = .ok (out, k)) {v : Variable} (hv : v ∈ x.marks marked g) :
    v ∈ marked ∨ .marker v ∈ out := by
  induction g generalizing marked n out with
  | nil => exact .inl hv
  | cons p ps ih =>
    obtain ⟨first, n', rest, hfirst, hrest, rfl⟩ := expandGroup_cons_ok.1 h
    rcases ih hrest hv with hmark | hmem
    · cases p with
      | statement s =>
        obtain ⟨_, own, _, rfl⟩ := x.expandPattern_ok hfirst
        rcases List.mem_append.1 hmark with hmarked | hnew
        · exact .inl hmarked
        · exact .inr (List.mem_append_left _ (List.mem_append_right _ (mem_markers hnew)))
      | optional g => exact .inl hmark
      | union gs => exact .inl hmark
      | filter e => exact .inl hmark
      | minus g => exact .inl hmark
    · exact .inr (List.mem_append_right _ hmem)

/-! ## Markers around a group -/

theorem enters_marked {outer inner : Site} {written : Group} (h : x.Enters outer written inner) :
    ∃ before n, x.expandGroup before outer.marked outer.numbered = .ok (written, n) ∧
      inner.marked = x.marks outer.marked before := by
  cases h with
  | optional hbefore => exact ⟨_, _, hbefore, rfl⟩
  | union hbefore _ => exact ⟨_, _, hbefore, rfl⟩
  | minus hbefore => exact ⟨_, _, hbefore, rfl⟩

/-- A variable that is marked when expansion comes to a group has its marker in what has been
written by then in one of the groups around. -/
theorem marker_of_marked {outer inner : Site} {others : List Group}
    (h : x.Reaches outer others inner) {v : Variable} (hv : v ∈ inner.marked) :
    v ∈ outer.marked ∨ ∃ written ∈ others, .marker v ∈ written := by
  induction h with
  | here site => exact .inl hv
  | into he _ ih =>
    rcases ih hv with hmiddle | ⟨written, hmem, hmarker⟩
    · obtain ⟨before, n, hbefore, heq⟩ := enters_marked he
      rw [heq] at hmiddle
      rcases marker_of_mem_marks hbefore hmiddle with hmarked | hmarker
      · exact .inl hmarked
      · exact .inr ⟨_, List.mem_cons_self, hmarker⟩
    · exact .inr ⟨written, List.mem_cons_of_mem _ hmem, hmarker⟩

/-- **Every resource variable is marked**, in its group or before it in a group around. -/
theorem marker_of_reaches {outer inner : Site} {others : List Group}
    (h : x.Reaches outer others inner) (houter : outer.marked = []) {made : Group} {k : Nat}
    (hmade : x.expandSite inner = .ok (made, k)) {s : Statement} (hs : .statement s ∈ inner.group)
    {v : Variable} (hv : s.Joins v) (hr : x.types.isResource (.var v) = true) :
    ∃ g ∈ made :: others, .marker v ∈ g := by
  rcases marker_of_mem_marks hmade (mem_marks hs hv hr) with hmarked | hmarker
  · rcases marker_of_marked h hmarked with hnone | ⟨written, hmem, hmarker⟩
    · rw [houter] at hnone
      cases hnone
    · exact ⟨written, List.mem_cons_of_mem _ hmem, hmarker⟩
  · exact ⟨made, List.mem_cons_self, hmarker⟩

/-- Every resource variable of a body, at any depth, is marked somewhere. -/
theorem marker_of_resource {g out : Group} {n k : Nat} (h : x.expandGroup g [] n = .ok (out, k))
    {s : Statement} (hs : s ∈ g.statements) {v : Variable} (hv : s.Joins v)
    (hr : x.types.isResource (.var v) = true) : .deletionMarker (.var v) ∈ out.statements := by
  obtain ⟨befores, inner, hin, hmem⟩ := Group.exists_inside hs
  obtain ⟨others, site, hreaches, rfl, _⟩ := exists_reaches hin h
  obtain ⟨made, k', hmade, hinside⟩ := reaches_inside hreaches h
  obtain ⟨part, hpart, hmarker⟩ := marker_of_reaches hreaches rfl hmade hmem hv hr
  exact hinside.statements_subset hpart (Group.mem_statements hmarker)

/-! ## Nothing is marked twice -/

/-- What becomes of a pattern: what stands for it, and the variables that are marked after it. -/
structure Piece where
  own : Group
  new : List Variable

def Piece.patterns (c : Piece) : Group :=
  c.own ++ markers c.new

/-- A statement becomes what it is expanded to, with markers of resource variables that stand in
it. -/
def MakesOf (x : Expander) (s : Statement) (c : Piece) : Prop :=
  (∃ n k, x.expandStatement s n = .ok (c.own, k)) ∧
    ∀ v ∈ c.new, s.Joins v ∧ x.types.isResource (.var v) = true

theorem makesOf_unmarked {s : Statement} {n k : Nat} {made : Group}
    (h : x.expandStatement s n = .ok (made, k)) (marked : List Variable) :
    x.MakesOf s ⟨made, x.unmarked marked s⟩ := by
  refine ⟨⟨n, k, h⟩, ?_⟩
  intro v hv
  obtain ⟨hjoins, hr, _⟩ := mem_unmarked.1 hv
  exact ⟨hjoins, hr⟩

/-- Any other pattern than a statement becomes one pattern that is no statement, without markers. -/
def Makes (x : Expander) : Pattern → Piece → Prop
  | .statement s, c => x.MakesOf s c
  | _, c => c.new = [] ∧ ∃ p, c.own = [p] ∧ p.statement? = none

theorem makes_of_expandPattern {p : Pattern} {marked : List Variable} {n k : Nat} {out : Group}
    (h : x.expandPattern p marked n = .ok (out, x.mark marked p, k)) :
    ∃ c, x.Makes p c ∧ out = c.patterns ∧ x.mark marked p = marked ++ c.new ∧ c.new.Nodup ∧
      ∀ v ∈ c.new, v ∉ marked := by
  have plain : ∀ q : Pattern, q.statement? = none → out = [q] → x.mark marked p = marked →
      ∃ c : Piece, (c.new = [] ∧ ∃ q, c.own = [q] ∧ q.statement? = none) ∧ out = c.patterns ∧
        x.mark marked p = marked ++ c.new ∧ c.new.Nodup ∧ ∀ v ∈ c.new, v ∉ marked := by
    rintro q hq rfl hmark
    exact ⟨⟨[q], []⟩, ⟨rfl, q, rfl, hq⟩, rfl, by rw [hmark, List.append_nil], .nil, by simp⟩
  have hp := (x.expandPattern_ok h).2
  cases p with
  | statement s =>
    obtain ⟨own, hown, rfl⟩ := hp
    refine ⟨_, makesOf_unmarked hown marked, rfl, rfl, nodup_unmarked marked s, ?_⟩
    intro v hv
    exact (mem_unmarked.1 hv).2.2
  | optional g =>
    obtain ⟨inner, _, hout⟩ := hp
    exact plain _ rfl hout rfl
  | union gs =>
    obtain ⟨inners, _, hout⟩ := hp
    exact plain _ rfl hout rfl
  | filter e => exact plain _ rfl hp.2 rfl
  | minus g =>
    obtain ⟨inner, _, hout⟩ := hp
    exact plain _ rfl hout rfl

/-- **No variable is marked twice in a group**, nor one that is marked before it. -/
theorem exists_pieces {g : Group} {marked : List Variable} {n k : Nat} {out : Group}
    (h : x.expandGroup g marked n = .ok (out, k)) :
    ∃ pieces, List.Forall₂ x.Makes g pieces ∧ out = pieces.flatMap Piece.patterns ∧
      (pieces.flatMap Piece.new).Nodup ∧ ∀ v ∈ pieces.flatMap Piece.new, v ∉ marked := by
  induction g generalizing marked n out with
  | nil =>
    rw [expandGroup] at h
    cases h
    exact ⟨[], .nil, rfl, .nil, by simp⟩
  | cons p ps ih =>
    obtain ⟨first, n', rest, hfirst, hrest, rfl⟩ := expandGroup_cons_ok.1 h
    obtain ⟨c, hc, rfl, hmark, hnodup, hnew⟩ := makes_of_expandPattern hfirst
    obtain ⟨pieces, hpieces, rfl, hnodups, hnews⟩ := ih hrest
    rw [hmark] at hnews
    refine ⟨c :: pieces, .cons hc hpieces, rfl, ?_, ?_⟩
    · rw [List.flatMap_cons]
      refine List.nodup_append.2 ⟨hnodup, hnodups, ?_⟩
      rintro v hv _ hw rfl
      exact hnews v hw (List.mem_append_right _ hv)
    · intro v hv
      rcases List.mem_append.1 hv with hv | hv
      · exact hnew v hv
      · exact fun hmarked => hnews v hv (List.mem_append_left _ hmarked)

/-! ## Statement by statement, at any depth -/

/-- The second statements are those of pieces, one piece for each of the first statements. -/
def PiecesOf (x : Expander) (ss outs : List Statement) : Prop :=
  ∃ pieces, List.Forall₂ x.MakesOf ss pieces ∧
    outs = pieces.flatMap fun c => c.patterns.statements

theorem PiecesOf.append {ss outs ss' outs' : List Statement} (h : x.PiecesOf ss outs)
    (h' : x.PiecesOf ss' outs') : x.PiecesOf (ss ++ ss') (outs ++ outs') := by
  obtain ⟨pieces, hpieces, rfl⟩ := h
  obtain ⟨pieces', hpieces', rfl⟩ := h'
  exact ⟨pieces ++ pieces', List.rel_append hpieces hpieces', by rw [List.flatMap_append]⟩

theorem PiecesOf.flatMap {gs inners : List Group}
    (h : List.Forall₂ (fun g inner => x.PiecesOf g.statements inner.statements) gs inners) :
    x.PiecesOf (gs.flatMap Group.statements) (inners.flatMap Group.statements) := by
  induction h with
  | nil => exact ⟨[], .nil, rfl⟩
  | cons hfirst _ ih => exact hfirst.append ih

/-- What each statement is expanded to is among what comes out. -/
theorem PiecesOf.exists_own {ss outs : List Statement} (h : x.PiecesOf ss outs) {s : Statement}
    (hs : s ∈ ss) :
    ∃ n k own, x.expandStatement s n = .ok (own, k) ∧ own.statements ⊆ outs := by
  obtain ⟨pieces, hpieces, rfl⟩ := h
  obtain ⟨c, hc, ⟨n, k, hown⟩, _⟩ := exists_of_mem_left hpieces hs
  refine ⟨n, k, c.own, hown, ?_⟩
  intro t ht
  refine List.mem_flatMap.2 ⟨c, hc, ?_⟩
  rw [Piece.patterns, Group.statements_append]
  exact List.mem_append_left _ ht

/-- What becomes of a group has the statements of pieces, one piece for each statement of the
group. -/
theorem statements_of_becomes {g out : Group} (h : x.Becomes g out) :
    x.PiecesOf g.statements out.statements := by
  induction g using Group.by_patterns generalizing out with
  | nil =>
    rw [becomes_nil h]
    exact ⟨[], .nil, rfl⟩
  | statement s ps ih =>
    obtain ⟨_, rest, rfl, hrest, n, made, k, marked, hmade, rfl⟩ := becomes_cons h
    have hfirst : x.PiecesOf [s] (Group.statements (made ++ markers (x.unmarked marked s))) := by
      refine ⟨[_], .cons (makesOf_unmarked hmade marked) .nil, ?_⟩
      rw [List.flatMap_singleton]
      rfl
    rw [Group.statements_append, Group.statements_statement]
    exact hfirst.append (ih hrest)
  | optional g ps ihg ih =>
    obtain ⟨_, rest, rfl, hrest, inner, hinner, rfl⟩ := becomes_cons h
    rw [List.singleton_append, Group.statements_optional, Group.statements_optional]
    exact (ihg hinner).append (ih hrest)
  | union gs ps ihg ih =>
    obtain ⟨_, rest, rfl, hrest, inners, hinners, rfl⟩ := becomes_cons h
    have hgs :
        List.Forall₂ (fun g inner => x.PiecesOf g.statements inner.statements) gs inners := by
      have hmem := (List.forall₂_and_left (p := (· ∈ gs)) gs inners).2 ⟨fun _ hg => hg, hinners⟩
      exact hmem.imp fun g inner h => ihg g h.1 h.2
    rw [List.singleton_append, Group.statements_union, Group.statements_union]
    exact (PiecesOf.flatMap hgs).append (ih hrest)
  | filter e ps ih =>
    obtain ⟨first, rest, rfl, hrest, hfirst⟩ := becomes_cons h
    have hfirst : first = [.filter e] := hfirst
    rw [hfirst, List.singleton_append, Group.statements_filter, Group.statements_filter]
    exact ih hrest
  | minus g ps ihg ih =>
    obtain ⟨_, rest, rfl, hrest, inner, hinner, rfl⟩ := becomes_cons h
    rw [List.singleton_append, Group.statements_minus, Group.statements_minus]
    exact (ihg hinner).append (ih hrest)

end Expander

end OntoQuery
