import OntoQuery.Proofs.FreshNames
import OntoQuery.Proofs.Shadow
import OntoQuery.Proofs.Versions

/-!
# What a statement asks for

A caller's statement with a value property asks for a content or a node of a current value, and one
with a link property for a resource with a link to it. `Expander.Relates` says so without the
variables that expansion makes, as a relation between the nodes of the statement. Here it is proved
of each statement that what is written for the store asks for the same (`Expander.exists_shadow`),
whatever came before it (`Expander.shadow_statement`).
-/

namespace OntoQuery

namespace Expander

/-- The kind of value that the entity is the content of. -/
def kind? (x : Expander) (content : Entity) : Option ValueKind :=
  (x.contentType? content).bind ValueKind.ofType?

/-- How the nodes of a statement are related in the graph. For a value property there is a current
value node, which is the object itself or has it as its content; for a link property there is also
an undeleted link to the object; otherwise they are a triple. -/
def Relates (x : Expander) (g : Graph) (s : Statement) (subject predicate object : Node) : Prop :=
  match x.passage s with
  | .ok .value => ∃ node, ⟨subject, predicate, node⟩ ∈ g ∧
      ⟨node, .iri Base.isDeleted, .lit (.boolean false)⟩ ∈ g ∧
      (∀ newer, ⟨newer, .iri Base.previousValue, node⟩ ∉ g) ∧
      if x.objectIsNode s then node = object
      else ∃ kind, x.kind? s.object = some kind ∧ ⟨node, .iri kind.contentPredicate, object⟩ ∈ g
  | .ok (.link property) => ⟨subject, predicate, object⟩ ∈ g ∧
      ∃ link linkValueProperty, x.ontology.linkValueProperty? property = some linkValueProperty ∧
        ⟨subject, .iri linkValueProperty, link⟩ ∈ g ∧ ⟨link, .iri Rdf.object, object⟩ ∈ g ∧
        ⟨link, .iri Base.isDeleted, .lit (.boolean false)⟩ ∈ g
  | _ => ⟨subject, predicate, object⟩ ∈ g

/-- The solutions over exactly the variables of the statement that relate its nodes. -/
def asked (x : Expander) (g : Graph) (s : Statement) : Solutions := fun m =>
  (∀ v, (m v).isSome = s.mentions v) ∧
    ∃ subject predicate object, s.subject.node? m = some subject ∧
      s.predicate.node? m = some predicate ∧ s.object.node? m = some object ∧
      x.Relates g s subject predicate object

/-- Statements match what they ask for. -/
def reading (x : Expander) (g : Graph) (operators : Operators) : Reading where
  statement := x.asked g
  operators := operators

theorem asked_direct {x : Expander} {s : Statement} (h : x.passage s = .ok .direct) (g : Graph) :
    x.asked g s = s.solutions g := by
  funext m
  apply propext
  unfold asked Statement.solutions Relates
  rw [h]
  refine and_congr_right fun _ => ?_
  constructor
  · rintro ⟨subject, predicate, object, hs, hp, ho, ht⟩
    exact ⟨_, ht, hs, hp, ho⟩
  · rintro ⟨⟨subject, predicate, object⟩, ht, hs, hp, ho⟩
    exact ⟨subject, predicate, object, hs, hp, ho, ht⟩

end Expander

/-! ## A hidden variable -/

/-- The solution with a node for one more variable. -/
def Solution.set (m : Solution) (w : Variable) (n : Node) : Solution :=
  fun v => if v = w then some n else m v

@[simp] theorem Solution.set_self (m : Solution) (w : Variable) (n : Node) :
    m.set w n w = some n := by
  simp [set]

theorem Entity.node?_set {m : Solution} {w : Variable} {n : Node} {e : Entity} (h : e ≠ .var w) :
    e.node? (m.set w n) = e.node? m := by
  refine Entity.node?_congr fun v hv => ?_
  have hne : v ≠ w := by
    rintro rfl
    exact h hv
  simp [Solution.set, hne]

section
variable {keep : Variable → Bool} {m : Solution} {w : Variable} {n : Node}

/-- A node for a variable that is not kept is forgotten again. -/
theorem Solution.restrict_set (hw : keep w = false) (hm : ∀ v, keep v = false → m v = none) :
    (m.set w n).restrict keep = m := by
  funext v
  by_cases hv : v = w
  · simp [Solution.restrict, hv, hw, hm w hw]
  · cases hk : keep v with
    | true => simp [Solution.restrict, Solution.set, hk, hv]
    | false => simp [Solution.restrict, hk, hm v hk]

/-- If nothing else is forgotten, a node can be put back. -/
theorem Solution.set_restrict (hn : m w = some n) (hm : ∀ v, v ≠ w → keep v = false → m v = none) :
    (m.restrict keep).set w n = m := by
  funext v
  by_cases hv : v = w
  · simp [hv, hn]
  · cases hk : keep v with
    | true => simp [Solution.restrict, Solution.set, hk, hv]
    | false => simp [Solution.restrict, Solution.set, hk, hv, hm v hv hk]

end

/-- A hidden variable that has some node is not seen. -/
theorem Shadow.of_hidden {keep mentions : Variable → Bool} {w : Variable}
    (hkeep : ∀ v, keep v = true → v.isReserved = false) (hw : Fresh [w])
    (hown : ∀ v, mentions v = true → keep v = true) (P : Solution → Prop) :
    Shadow keep [w] [] (fun a => (∀ v, (a v).isSome = (mentions v || v == w)) ∧ P a)
      (fun b => (∀ v, (b v).isSome = mentions v) ∧ ∃ n, P (b.set w n)) := by
  obtain ⟨hreserved, hnewer⟩ := hw w List.mem_cons_self
  have hkw := not_kept hkeep hreserved
  have hother : ∀ v, keep v = false → mentions v = false := by
    intro v hv
    by_contra hmentions
    exact Bool.false_ne_true (hv.symm.trans (hown v (by simpa using hmentions)))
  constructor
  · rintro a ⟨hdomain, _⟩ v hv
    rw [hdomain, Bool.or_eq_true, beq_iff_eq] at hv
    rcases hv with hv | rfl
    · exact .inl (hown v hv)
    · exact .inr (.inl List.mem_cons_self)
  · intro b
    constructor
    · rintro ⟨hdomain, n, hP⟩
      have hnone : ∀ v, keep v = false → b v = none := by
        intro v hv
        rw [← Option.not_isSome_iff_eq_none, hdomain, hother v hv]
        exact Bool.false_ne_true
      refine ⟨b.set w n, ⟨fun v => ?_, hP⟩, fun node => ?_, Solution.restrict_set hkw hnone⟩
      · by_cases hv : v = w
        · simp [hv]
        · simp [Solution.set, hv, hdomain]
      · have hfree := not_kept hkeep (Variable.newerVersion_reserved node)
        simp [Solution.set, (hnewer node).symm, hnone _ hfree]
    · rintro ⟨a, ⟨hdomain, hP⟩, _, rfl⟩
      obtain ⟨n, hn⟩ : ∃ n, a w = some n := Option.isSome_iff_exists.1 (by simp [hdomain])
      have hnone : ∀ v, v ≠ w → keep v = false → a v = none := by
        intro v hv hk
        rw [← Option.not_isSome_iff_eq_none, hdomain, hother v hk, beq_eq_false_iff_ne.2 hv]
        exact Bool.false_ne_true
      refine ⟨fun v => ?_, n, (Solution.set_restrict hn hnone).symm ▸ hP⟩
      rw [Solution.isSome_restrict, hdomain]
      cases hmentions : mentions v with
      | true => simp [hown v hmentions]
      | false =>
        by_cases hv : v = w
        · simp [hv, hkw]
        · simp [hv]

/-! ## Current values -/

/-- Nothing replaces the node that the entity stands for. -/
def Graph.Newest (g : Graph) (node : Entity) (m : Solution) : Prop :=
  ∀ a, node.node? m = some a → ∀ newer, ⟨newer, .iri Base.previousValue, a⟩ ∉ g

/-- An entity that stands for a node stands for it in a solution with more. -/
theorem Graph.newest_of_extends {g : Graph} {node : Entity} {m b : Solution} (h : m.Extends b)
    {a : Node} (ha : node.node? b = some a) : g.Newest node m ↔ g.Newest node b := by
  have hm := Entity.node?_extends h ha
  simp only [Newest, ha, hm]

/-- Whether live solutions are the same is not changed by a join. -/
theorem Solutions.join_congr_live {as bs cs : Solutions}
    (h : ∀ l : Solution, l.Live → (as l ↔ bs l)) {m : Solution} (hm : m.Live) :
    as.join cs m ↔ bs.join cs m := by
  constructor
  · rintro ⟨a, c, ha, hc, hcompatible, rfl⟩
    exact ⟨a, c, (h a (Solution.live_merge.1 hm).1).1 ha, hc, hcompatible, rfl⟩
  · rintro ⟨a, c, ha, hc, hcompatible, rfl⟩
    exact ⟨a, c, (h a (Solution.live_merge.1 hm).1).2 ha, hc, hcompatible, rfl⟩

section
variable {g : Graph} {node : Entity} (hnode : node.isLiteral = false) {bs : Solutions}
  (hbound : ∀ b, bs b → ∃ a, node.node? b = some a)
include hnode hbound

/-- Looking for a newer version leaves those solutions live for which there is none. -/
theorem leftJoin_replaces (as : Solutions) {l : Solution} (hl : l.Live) :
    (as.join bs).leftJoin ((Statement.replaces node).solutions g) l ↔
      as.join (fun b => bs b ∧ g.Newest node b) l := by
  constructor
  · rintro (hjoin | ⟨⟨a, b, ha, hb, hcompatible, rfl⟩, hnone⟩)
    · -- What is found gives the variable a node, and the solution is not live.
      obtain ⟨_, c, hc, hext⟩ := Solutions.join_extends hjoin
      obtain ⟨_, _, hsubject, _⟩ := Statement.triple_of_extends hc hext
      cases (hl node).symm.trans hsubject
    · refine ⟨a, b, ha, ⟨hb, fun n hn newer htriple => ?_⟩, hcompatible, rfl⟩
      have hm := Entity.node?_extends (Solution.merge_extends_right hcompatible) hn
      exact hnone _ (Statement.solutions_replaces htriple hnode hm)
        (Statement.compatible_replaces (hl node) hm)
  · rintro ⟨a, b, ha, ⟨hb, hnewest⟩, hcompatible, rfl⟩
    refine .inr ⟨⟨a, b, ha, hb, hcompatible, rfl⟩, ?_⟩
    rintro c ⟨_, ⟨newer, _, object⟩, htriple, hsubject, hpredicate, hobject⟩ hagree
    obtain ⟨n, hn⟩ := hbound b hb
    have hm := Entity.node?_extends (Solution.merge_extends_right hcompatible) hn
    have hsame : object = n := by
      cases node with
      | iri ref => exact Option.some.inj (hobject.symm.trans hn)
      | var v => exact (hagree v n object hm hobject).symm
      | lit l => cases hnode
    cases hpredicate
    rw [hsame] at htriple
    exact hnewest n hn newer htriple

end

/-- What is written for a current value matches, in live solutions, its statements and that the node
is the newest. -/
theorem matchFrom_current {g : Graph} {ops : Operators} {subject predicate node : Entity}
    (hnode : node.isLiteral = false) (rest : List Statement) (as : Solutions) {m : Solution}
    (hm : m.Live) :
    Group.matchFrom (g.reading ops)
        (.triple subject predicate node :: Expander.current node ++ rest.map .statement) as m ↔
      as.join (fun b =>
        g.basic (⟨subject, predicate, node⟩ :: .deletionMarker node :: rest) b ∧
          g.Newest node b) m := by
  let own : List Statement := [⟨subject, predicate, node⟩, .deletionMarker node]
  have hbound : ∀ b, g.basic own b → ∃ a, node.node? b = some a := by
    rintro b ⟨_, hmatched⟩
    obtain ⟨t, _, _, _, hobject⟩ := hmatched ⟨subject, predicate, node⟩ List.mem_cons_self
    exact ⟨_, hobject⟩
  have hsplit : Group.matchFrom (g.reading ops)
      (.triple subject predicate node :: Expander.current node ++ rest.map .statement) as =
      ((as.join (g.basic own)).leftJoin ((Statement.replaces node).solutions g)).join
        (g.basic rest) := by
    have hfirst := Group.matchFrom_statements g ops own as
    rw [Group.matchFrom_append, Group.matchFrom_statements]
    change Solutions.join
      (Solutions.leftJoin (Group.matchFrom (g.reading ops) (own.map .statement) as)
        (Group.solutions (g.reading ops) [.statement (.replaces node)])) _ = _
    rw [hfirst, Group.solutions_statement]
    rfl
  have hrest : (Solutions.join (fun b => g.basic own b ∧ g.Newest node b) (g.basic rest)) =
      fun b => g.basic (own ++ rest) b ∧ g.Newest node b := by
    funext b
    apply propext
    rw [g.basic_append]
    constructor
    · rintro ⟨c, d, ⟨hc, hnewest⟩, hd, hcompatible, rfl⟩
      obtain ⟨a, ha⟩ := hbound c hc
      exact ⟨⟨c, d, hc, hd, hcompatible, rfl⟩,
        (Graph.newest_of_extends (c.merge_extends_left d) ha).2 hnewest⟩
    · rintro ⟨⟨c, d, hc, hd, hcompatible, rfl⟩, hnewest⟩
      obtain ⟨a, ha⟩ := hbound c hc
      exact ⟨c, d, ⟨hc, (Graph.newest_of_extends (c.merge_extends_left d) ha).1 hnewest⟩, hd,
        hcompatible, rfl⟩
  rw [hsplit, Solutions.join_congr_live (fun l hl => leftJoin_replaces hnode hbound as hl) hm,
    Solutions.join_assoc, hrest]
  rfl

/-! ## One statement -/

/-- The entities of a statement stand for the same with another variable set. -/
theorem Statement.node?_set {s : Statement} {w : Variable} (hw : s.mentions w = false) {e : Entity}
    (he : e ∈ s.entities) (m : Solution) (n : Node) : e.node? (m.set w n) = e.node? m := by
  refine Entity.node?_set ?_
  rintro rfl
  exact Bool.false_ne_true (hw.symm.trans (by simpa [mentions] using he))

namespace Expander
variable {x : Expander} {s : Statement} {g : Graph}

/-- A value by its node is undeleted and the newest. -/
theorem asked_node (hp : x.passage s = .ok .value) (hnode : x.objectIsNode s = true) :
    x.asked g s = fun b => g.basic [s, .deletionMarker s.object] b ∧ g.Newest s.object b := by
  funext m
  apply propext
  have hmentions : ∀ v, [s, Statement.deletionMarker s.object].any (·.mentions v) =
      s.mentions v := by
    intro v
    simp only [List.any_cons, List.any_nil, Bool.or_false, Bool.or_eq_left_iff_imp]
    simp only [Statement.mentions, Statement.entities, Statement.deletionMarker]
    simp +contextual [Entity.ofIri]
  unfold asked Relates Graph.basic
  simp only [hp, hnode, if_true, hmentions, and_assoc]
  refine and_congr_right fun _ => ?_
  simp only [List.mem_cons, List.not_mem_nil, or_false, forall_eq_or_imp, forall_eq]
  constructor
  · rintro ⟨subject, predicate, object, hs, hp, ho, _, htriple, hundeleted, hnewest, rfl⟩
    refine ⟨⟨⟨_, htriple, hs, hp, ho⟩, ⟨_, hundeleted, ho, rfl, rfl⟩⟩, fun a ha => ?_⟩
    cases ha.symm.trans ho
    exact hnewest
  · rintro ⟨⟨⟨⟨subject, predicate, object⟩, htriple, hs, hp, ho⟩,
      ⟨⟨_, _, _⟩, hundeleted, hn, hd, hf⟩⟩, hnewest⟩
    cases ho.symm.trans hn
    cases hd
    cases hf
    exact ⟨subject, predicate, object, hs, hp, ho, object, htriple, hundeleted,
      hnewest object ho, rfl⟩

section
variable {w : Variable} (hw : s.mentions w = false)
include hw

/-- A value by its content has a node, undeleted and the newest, that leads there. -/
theorem asked_content {kind : ValueKind} (hp : x.passage s = .ok .value)
    (hnode : x.objectIsNode s = false) (hkind : x.kind? s.object = some kind) :
    x.asked g s = fun b => (∀ v, (b v).isSome = s.mentions v) ∧ ∃ n,
      (∀ t ∈ [⟨s.subject, s.predicate, .var w⟩, .deletionMarker (.var w),
        ⟨.var w, .ofIri kind.contentPredicate, s.object⟩], Statement.Matched g (b.set w n) t) ∧
      g.Newest (.var w) (b.set w n) := by
  funext m
  apply propext
  have hsubject := Statement.node?_set hw (e := s.subject) (by simp [Statement.entities]) m
  have hpredicate := Statement.node?_set hw (e := s.predicate) (by simp [Statement.entities]) m
  have hobject := Statement.node?_set hw (e := s.object) (by simp [Statement.entities]) m
  unfold asked Relates
  simp only [hp, hnode, hkind]
  refine and_congr_right fun _ => ?_
  simp only [List.mem_cons, List.not_mem_nil, or_false, forall_eq_or_imp, forall_eq]
  constructor
  · rintro ⟨subject, predicate, object, hs, hp, ho, node, htriple, hundeleted, hnewest, _,
      ⟨⟩, hcontent⟩
    have hself := m.set_self w node
    refine ⟨node, ⟨⟨_, htriple, (hsubject node).trans hs, (hpredicate node).trans hp, hself⟩,
      ⟨_, hundeleted, hself, rfl, rfl⟩, ⟨_, hcontent, hself, rfl, (hobject node).trans ho⟩⟩,
        fun a ha => ?_⟩
    cases hself.symm.trans ha
    exact hnewest
  · rintro ⟨node, ⟨⟨⟨subject, predicate, _⟩, htriple, hs, hp, hn⟩,
      ⟨⟨_, _, _⟩, hundeleted, hn', hd, hf⟩, ⟨⟨_, _, object⟩, hcontent, hn'', hc, ho⟩⟩, hnewest⟩
    have hself := m.set_self w node
    obtain rfl := Option.some.inj (hself.symm.trans hn)
    obtain rfl := Option.some.inj (hself.symm.trans hn')
    obtain rfl := Option.some.inj (hself.symm.trans hn'')
    cases hd
    cases hf
    cases hc
    exact ⟨subject, predicate, object, (hsubject node).symm.trans hs,
      (hpredicate node).symm.trans hp, (hobject node).symm.trans ho, node, htriple, hundeleted,
      hnewest node hself, kind, rfl, hcontent⟩

/-- A link has an undeleted node of its own. -/
theorem asked_link {property linkValueProperty : Iri} (hp : x.passage s = .ok (.link property))
    (hproperty : x.ontology.linkValueProperty? property = some linkValueProperty) :
    x.asked g s = fun b => (∀ v, (b v).isSome = s.mentions v) ∧ ∃ n,
      ∀ t ∈ [s, ⟨s.subject, .ofIri linkValueProperty, .var w⟩,
        ⟨.var w, .ofIri Rdf.object, s.object⟩, .deletionMarker (.var w)],
          Statement.Matched g (b.set w n) t := by
  funext m
  apply propext
  have hsubject := Statement.node?_set hw (e := s.subject) (by simp [Statement.entities]) m
  have hpredicate := Statement.node?_set hw (e := s.predicate) (by simp [Statement.entities]) m
  have hobject := Statement.node?_set hw (e := s.object) (by simp [Statement.entities]) m
  unfold asked Relates
  simp only [hp, hproperty]
  refine and_congr_right fun _ => ?_
  simp only [List.mem_cons, List.not_mem_nil, or_false, forall_eq_or_imp, forall_eq]
  constructor
  · rintro ⟨subject, predicate, object, hs, hp, ho, htriple, link, _, ⟨⟩, hlink, hend, hundeleted⟩
    have hself := m.set_self w link
    have hs := (hsubject link).trans hs
    have ho := (hobject link).trans ho
    exact ⟨link, ⟨_, htriple, hs, (hpredicate link).trans hp, ho⟩, ⟨_, hlink, hs, rfl, hself⟩,
      ⟨_, hend, hself, rfl, ho⟩, ⟨_, hundeleted, hself, rfl, rfl⟩⟩
  · rintro ⟨link, ⟨⟨subject, predicate, object⟩, htriple, hs, hp, ho⟩,
      ⟨⟨_, _, _⟩, hlink, hs', hl, hn⟩, ⟨⟨_, _, _⟩, hend, hn', he, ho'⟩,
      ⟨⟨_, _, _⟩, hundeleted, hn'', hd, hf⟩⟩
    have hself := m.set_self w link
    cases hs.symm.trans hs'
    cases ho.symm.trans ho'
    obtain rfl := Option.some.inj (hself.symm.trans hn)
    obtain rfl := Option.some.inj (hself.symm.trans hn')
    obtain rfl := Option.some.inj (hself.symm.trans hn'')
    cases hl
    cases he
    cases hd
    cases hf
    exact ⟨subject, predicate, object, (hsubject link).symm.trans hs,
      (hpredicate link).symm.trans hp, (hobject link).symm.trans ho, htriple, link,
      linkValueProperty, rfl, hlink, hend, hundeleted⟩

end

theorem fresh_hidden (n : Nat) (s : Statement) : Fresh (x.hidden n s) := by
  intro v hv
  have hmem : v ∈ x.hiddenIn n [s] := by rwa [hiddenIn, hiddenIn, List.append_nil]
  exact x.hiddenIn_fresh hmem

section
variable {keep : Variable → Bool} (hkeep : ∀ v, keep v = true → v.isReserved = false)
  (hown : ∀ v, s.mentions v = true → keep v = true)
include hkeep hown

theorem not_mentions_of_fresh {w : Variable} (hw : Fresh [w]) : s.mentions w = false := by
  rw [← Bool.not_eq_true]
  intro hmentions
  have hnot := Shadow.not_kept hkeep (hw w List.mem_cons_self).1
  exact Bool.false_ne_true (hnot.symm.trans (hown w hmentions))

theorem shadow_content {w : Variable} (hw : Fresh [w]) {kind : ValueKind}
    (hp : x.passage s = .ok .value) (hnode : x.objectIsNode s = false)
    (hkind : x.kind? s.object = some kind) :
    Shadow keep [w] []
      (fun b => g.basic [⟨s.subject, s.predicate, .var w⟩, .deletionMarker (.var w),
        ⟨.var w, .ofIri kind.contentPredicate, s.object⟩] b ∧ g.Newest (.var w) b)
          (x.asked g s) := by
  have hmentions : ∀ v, [⟨s.subject, s.predicate, .var w⟩, Statement.deletionMarker (.var w),
      ⟨.var w, .ofIri kind.contentPredicate, s.object⟩].any (·.mentions v) =
        (s.mentions v || v == w) := by
    intro v
    rw [Bool.eq_iff_iff]
    grind [Statement.mentions, Statement.entities, Statement.deletionMarker, Entity.ofIri]
  rw [asked_content (not_mentions_of_fresh hkeep hown hw) hp hnode hkind]
  simp only [Graph.basic, hmentions, and_assoc]
  exact Shadow.of_hidden hkeep hw hown _

theorem shadow_link {w : Variable} (hw : Fresh [w]) {property linkValueProperty : Iri}
    (hp : x.passage s = .ok (.link property))
    (hproperty : x.ontology.linkValueProperty? property = some linkValueProperty) :
    Shadow keep [w] [] (g.basic [s, ⟨s.subject, .ofIri linkValueProperty, .var w⟩,
      ⟨.var w, .ofIri Rdf.object, s.object⟩, .deletionMarker (.var w)]) (x.asked g s) := by
  have hmentions : ∀ v, [s, ⟨s.subject, .ofIri linkValueProperty, .var w⟩,
      ⟨.var w, .ofIri Rdf.object, s.object⟩, Statement.deletionMarker (.var w)].any (·.mentions v) =
        (s.mentions v || v == w) := by
    intro v
    rw [Bool.eq_iff_iff]
    grind [Statement.mentions, Statement.entities, Statement.deletionMarker, Entity.ofIri]
  rw [asked_link (not_mentions_of_fresh hkeep hown hw) hp hproperty]
  unfold Graph.basic
  simp only [hmentions]
  exact Shadow.of_hidden hkeep hw hown _

/-- **What is written for a statement asks for the same**, in live solutions and seen without the
hidden variable. -/
theorem exists_shadow {n k : Nat} {made : Group} (h : x.expandStatement s n = .ok (made, k))
    (g : Graph) (ops : Operators) :
    ∃ cs, Shadow keep (x.hidden n s) [] cs (x.asked g s) ∧
      ∀ as m, m.Live → (Group.matchFrom (g.reading ops) made as m ↔ as.join cs m) := by
  have hplain : Shadow keep [] [] (x.asked g s) (x.asked g s) :=
    Shadow.plain hkeep fun b hb v hv => hown v ((hb.1 v).symm.trans hv)
  have hfresh := fresh_hidden (x := x) n s
  have hliteral := x.node_not_literal s n
  cases x.expandStatement_eq_ok.1 h with
  | direct hp =>
    have hhidden : x.hidden n s = [] := by simp [hidden, hp]
    refine ⟨x.asked g s, hhidden ▸ hplain, fun as m _ => ?_⟩
    rw [asked_direct hp]
    rfl
  | node hp hnode =>
    have hhidden : x.hidden n s = [] := by simp [hidden, hp, hnode]
    have hobject : (x.node s n).1 = s.object := by simp [node, hnode]
    refine ⟨x.asked g s, hhidden ▸ hplain, fun as m hm => ?_⟩
    refine (matchFrom_current hliteral [] as hm).trans ?_
    rw [hobject, asked_node hp hnode]
  | content hp hnode hkind _ =>
    obtain ⟨w, hw⟩ : ∃ w, (x.node s n).1 = .var w := by
      unfold node
      rw [if_neg (by simp [hnode])]
      split
      · exact ⟨_, rfl⟩
      · exact ⟨_, rfl⟩
    have hhidden : x.hidden n s = [w] := by simp [hidden, hp, hnode, hw, Entity.var?]
    rw [hhidden] at hfresh ⊢
    refine ⟨_, shadow_content hkeep hown hfresh hp hnode hkind, fun as m hm => ?_⟩
    refine (matchFrom_current hliteral [_] as hm).trans ?_
    rw [hw]
  | @link property _ hp hproperty _ =>
    have hhidden : x.hidden n s = [.linkValue s.subject property s.object] := by simp [hidden, hp]
    rw [hhidden] at hfresh ⊢
    refine ⟨_, shadow_link hkeep hown hfresh hp hproperty, fun as m _ => ?_⟩
    rw [← Group.matchFrom_statements]
    rfl

end

/-- The node of a value is hidden, or the statement names it. -/
theorem node_hidden {n : Nat} {v : Variable} (hp : x.passage s = .ok .value)
    (h : (x.node s n).1 = .var v) : s.mentions v = true ∨ v ∈ x.hidden n s := by
  cases hnode : x.objectIsNode s with
  | true =>
    rw [node, if_pos hnode] at h
    exact .inl (Statement.mentions_eq_true.2 (.inr (.inr h)))
  | false => exact .inr (by simp [hidden, hp, hnode, h, Entity.var?])

/-- A variable of what is written stands in the statement, is hidden, or is for a newer version. -/
theorem mentions_of_writes {n : Nat} {t : Statement} (h : x.Writes s n t) {v : Variable}
    (hv : t.mentions v = true) : s.mentions v = true ∨ v ∈ x.hidden n s ∨
      x.passage s = .ok .value ∧ v = .newerVersion (x.node s n).1 := by
  obtain hs | ⟨hp, hnode | hnewer⟩ | ⟨property, hp, rfl⟩ := h.mentions_cases hv
  · exact .inl hs
  · exact (node_hidden hp hnode).imp_right .inl
  · exact .inr (.inr ⟨hp, hnewer⟩)
  · exact .inr (.inl (by simp [hidden, hp]))

/-- **A statement is added on both sides**: what is written for it, and what it asks for. -/
theorem shadow_statement {keep : Variable → Bool}
    (hkeep : ∀ v, keep v = true → v.isReserved = false) {n k : Nat} {made : Group}
    (h : x.expandStatement s n = .ok (made, k)) (hown : ∀ v, s.mentions v = true → keep v = true)
    {names : List Variable} {written : Group} {as bs : Solutions}
    (hshadow : Shadow keep names written as bs) (hdisjoint : ∀ v ∈ names, v ∉ x.hidden n s)
    (g : Graph) (ops : Operators) :
    Shadow keep (names ++ x.hidden n s) (written ++ made) (made.matchFrom (g.reading ops) as)
      (bs.join (x.asked g s)) := by
  obtain ⟨cs, hcs, hlive⟩ := exists_shadow hkeep hown h g ops
  have hjoin := hshadow.join hcs hdisjoint (fresh_hidden n s)
  refine (hjoin.mono (List.Subset.refl _) (List.subset_append_left _ made)).of_live ?_ (hlive as)
  intro a ha v hv
  rcases Group.mentions_of_matchFrom ha hv with ⟨b, hb, hbv⟩ | ⟨t, ht, htv⟩
  · exact (hshadow.mono (List.subset_append_left _ _) (List.subset_append_left _ _)).within b hb v
      hbv
  · obtain hs | hh | ⟨hp, rfl⟩ := mentions_of_writes (x.writes_of_expandStatement h ht) htv
    · exact .inl (hown v hs)
    · exact .inr (.inl (List.mem_append_right _ hh))
    · have hfilter : .filter (.not (.bound (.newerVersion (x.node s n).1))) ∈ made :=
        x.current_subset hp h (List.mem_cons_of_mem _ (List.mem_cons_of_mem _ List.mem_cons_self))
      exact .inr (.inr ⟨_, rfl, List.mem_append_right _ hfilter⟩)

end Expander

end OntoQuery
