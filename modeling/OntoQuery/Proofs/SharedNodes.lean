import OntoQuery.Proofs.GeneratedNames

/-!
# Nodes that statements share

Generated nodes are named after statements, but a name does not keep all of a statement. The node of
a content is named after the object alone if that is a variable, so two statements with the same
variable for a content share their node. The node of a link is named after subject, property and
object, but of IRIs only the local name is kept, with an underscore for what a name cannot contain;
so links to different resources can share their node (`neighbours_share_link_node`), and then the
store is asked for one link that leads to both.

`shared_nodes_iff` says exactly when nodes are shared, for links under the proviso that subjects and
properties have names that do not run into the separator (`Entity.NamedApart`, `Variable.Apart`).
-/

namespace OntoQuery

namespace Variable

/-- A name that cannot be mistaken for a longer or a shorter one when the separator follows: it has
no two underscores in a row, nor one at its end. -/
def Apart (name : String) : Prop :=
  ¬ separator.toList <:+: name.toList ++ ['_']

instance (name : String) : Decidable (Apart name) :=
  inferInstanceAs (Decidable (¬ _))

theorem toList_separator : separator.toList = ['_', '_'] := rfl

theorem Apart.ne {name : String} (h : Apart name) (before after : List Char) :
    name.toList ++ ['_'] ≠ before ++ '_' :: '_' :: after := by
  intro heq
  refine h ⟨before, after, ?_⟩
  rw [heq, toList_separator, List.append_assoc]
  rfl

theorem apart_of_not_reserved {v : Variable} (h : v.isReserved = false)
    (hending : v.ending ≠ some '_') : Apart v.name := by
  rintro ⟨before, after, heq⟩
  rw [toList_separator] at heq
  rcases List.eq_nil_or_concat after with rfl | ⟨after, c, rfl⟩
  · apply hending
    have htail : before ++ ['_'] ++ ['_'] = v.name.toList ++ ['_'] := by simpa using heq
    rw [ending, ← List.append_cancel_right htail, List.getLast?_concat]
  · have htail : before ++ '_' :: '_' :: after ++ [c] = v.name.toList ++ ['_'] := by simpa using heq
    have hname := (List.append_inj' htail rfl).1
    have hreserved : v.isReserved = true := by
      rw [isReserved_iff, toList_separator]
      exact ⟨before, after, by simpa using hname⟩
    cases h.symm.trans hreserved

/-- Where a name ends is decided by the first separator. -/
theorem append_separator_inj {name name' : String} (h : Apart name) (h' : Apart name')
    {rest rest' : List Char}
    (heq : name.toList ++ '_' :: '_' :: rest = name'.toList ++ '_' :: '_' :: rest') :
    name = name' ∧ rest = rest' := by
  -- If one name were longer, it would have the separator of the other in it.
  have longer : ∀ {a b : String} {r r' more : List Char}, Apart b → b.toList = a.toList ++ more →
      '_' :: '_' :: r = more ++ '_' :: '_' :: r' → more = [] := by
    intro a b r r' more hb hmore heq
    cases more with
    | nil => rfl
    | cons c more =>
      rw [List.cons_append, List.cons.injEq] at heq
      obtain ⟨rfl, heq⟩ := heq
      cases more with
      | nil => exact absurd (by simp [hmore]) (hb.ne a.toList [])
      | cons c more =>
        rw [List.cons_append, List.cons.injEq] at heq
        obtain ⟨rfl, _⟩ := heq
        exact absurd (by simp [hmore]) (hb.ne a.toList (more ++ ['_']))
  rcases List.append_eq_append_iff.1 heq with ⟨more, hmore, hrest⟩ | ⟨more, hmore, hrest⟩
  · cases longer h' hmore hrest
    exact ⟨String.toList_injective (by simpa using hmore.symm), by simpa using hrest⟩
  · cases longer h hmore hrest
    exact ⟨String.toList_injective (by simpa using hmore), by simpa using hrest.symm⟩

theorem toList_linkValue (subject : Entity) (property : Iri) (object : Entity) :
    (linkValue subject property object).name.toList =
      subject.baseName.toList ++ '_' :: '_' :: ((Iri.plainName property.localName).toList ++
        '_' :: '_' :: (object.baseName.toList ++ "__LinkValue".toList)) := by
  simp [linkValue, joined, separator, String.intercalate_cons_cons]

/-- The names of links keep subject, property and object apart. -/
theorem linkValue_eq_iff {subject subject' object object' : Entity} {property property' : Iri}
    (hsubject : Apart subject.baseName) (hsubject' : Apart subject'.baseName)
    (hproperty : Apart (Iri.plainName property.localName))
    (hproperty' : Apart (Iri.plainName property'.localName)) :
    linkValue subject property object = linkValue subject' property' object' ↔
      subject.baseName = subject'.baseName ∧
      Iri.plainName property.localName = Iri.plainName property'.localName ∧
      object.baseName = object'.baseName := by
  constructor
  · intro h
    have hname := congrArg (·.name.toList) h
    simp only [toList_linkValue] at hname
    obtain ⟨hs, hname⟩ := append_separator_inj hsubject hsubject' hname
    obtain ⟨hp, hname⟩ := append_separator_inj hproperty hproperty' hname
    exact ⟨hs, hp, String.toList_injective (List.append_cancel_right hname)⟩
  · rintro ⟨hs, hp, ho⟩
    rw [linkValue, linkValue, hs, hp, ho]

end Variable

/-- The entity has a name that does not run into the separator. In a checked query no variable has
the separator in its name, so only its end counts. -/
def Entity.NamedApart : Entity → Prop
  | .var v => v.ending ≠ some '_'
  | e => Variable.Apart e.baseName

instance : (e : Entity) → Decidable e.NamedApart
  | .var v => inferInstanceAs (Decidable (v.ending ≠ some '_'))
  | .iri ref => inferInstanceAs (Decidable (Variable.Apart (Entity.iri ref).baseName))
  | .lit l => inferInstanceAs (Decidable (Variable.Apart (Entity.lit l).baseName))

theorem Entity.NamedApart.apart {e : Entity} (h : e.NamedApart)
    (hname : ∀ v, e = .var v → v.isReserved = false) : Variable.Apart e.baseName := by
  cases e with
  | var v => exact Variable.apart_of_not_reserved (hname v rfl) h
  | iri ref => exact h
  | lit l => exact h

namespace Expander
variable {x : Expander}

/-! ## The node at a place -/

/-- How many nodes are numbered before a place. -/
def numberAt (x : Expander) (ss : List Statement) (i : Nat) : Nat :=
  ((ss.take i).filter x.isNumbered).length

theorem numberAt_lt {ss : List Statement} {i j : Nat} (hij : i < j) {s : Statement}
    (hs : ss[i]? = some s) (hnumbered : x.isNumbered s = true) :
      x.numberAt ss i < x.numberAt ss j := by
  have hstart : ss.take i ++ [s] <+: ss.take j := by
    have htake : ss.take (i + 1) = ss.take i ++ [s] := by
      rw [List.take_add_one, hs]
      rfl
    rw [← htake]
    exact List.take_prefix_take_left hij
  have hle := (hstart.filter x.isNumbered).length_le
  rw [List.filter_append, List.filter_singleton, hnumbered, List.length_append] at hle
  exact Nat.lt_of_succ_le hle

/-- Each statement is expanded with the nodes before it numbered. -/
theorem InTurn.at {ss : List Statement} {owns : List Group} {n k : Nat} (h : x.InTurn ss n owns k)
    {i : Nat} {s : Statement} (hs : ss[i]? = some s) :
    ∃ own ∈ owns, ∃ k', x.expandStatement s (n + x.numberAt ss i) = .ok (own, k') := by
  induction h generalizing i with
  | nil n => cases hs
  | @cons first ss own owns n n' k hown _ ih =>
    cases i with
    | zero =>
      cases hs
      exact ⟨own, List.mem_cons_self, n', by simpa [numberAt] using hown⟩
    | succ i =>
      obtain ⟨other, hother, k', hrun⟩ := ih hs
      refine ⟨other, List.mem_cons_of_mem _ hother, k', ?_⟩
      have hn : n + x.numberAt (first :: ss) (i + 1) = n' + x.numberAt ss i := by
        rw [expandStatement_number hown, numberAt, List.take_succ_cons, List.filter_cons]
        split
        · rw [List.length_cons, numberAt]
          omega
        · rfl
      rw [hn]
      exact hrun

/-- The node of a variable is named after it. -/
theorem node_of_variable {s : Statement} (h : x.objectIsNode s = false) {v : Variable}
    (hv : s.object = .var v) (n : Nat) : (x.node s n).1 = .var (.joined [v.name, "valueNode"]) := by
  simp [node, h, hv, Entity.isVariable, Entity.var?, Variable.valueNode]

/-- **When two places have the same value node**: if the object is the same variable. -/
theorem node_eq_iff {ss : List Statement} {i j : Nat} (hij : i ≠ j) {s s' : Statement}
    (hs : ss[i]? = some s) (hs' : ss[j]? = some s') (hp : x.passage s = .ok .value)
    (hp' : x.passage s' = .ok .value) (hnode : x.objectIsNode s = false)
    (hnode' : x.objectIsNode s' = false) :
    (x.node s (x.numberAt ss i)).1 = (x.node s' (x.numberAt ss j)).1 ↔
      ∃ v, s.object = .var v ∧ s'.object = .var v := by
  have variable_or_numbered : ∀ {t : Statement}, x.passage t = .ok .value →
      x.objectIsNode t = false → (∃ v, t.object = .var v) ∨ x.isNumbered t = true := by
    intro t hp hnode
    cases hobject : t.object with
    | var v => exact .inl ⟨v, rfl⟩
    | iri ref => exact .inr (isNumbered_iff.2 ⟨hp, hnode, by rw [hobject]; rfl⟩)
    | lit l => exact .inr (isNumbered_iff.2 ⟨hp, hnode, by rw [hobject]; rfl⟩)
  have not_variable : ∀ {t : Statement} {v : Variable}, x.isNumbered t = true →
      t.object ≠ .var v := by
    intro t v hnumbered hv
    have hobject := (isNumbered_iff.1 hnumbered).2.2
    rw [hv] at hobject
    cases hobject
  rcases variable_or_numbered hp hnode with ⟨v, hv⟩ | hnumbered
  · rw [node_of_variable hnode hv]
    rcases variable_or_numbered hp' hnode' with ⟨v', hv'⟩ | hnumbered'
    · rw [node_of_variable hnode' hv', hv, hv']
      constructor
      · intro h
        cases Variable.contentNode_inj (Entity.var.inj h)
        exact ⟨v, rfl, rfl⟩
      · rintro ⟨w, hw, hw'⟩
        cases hw
        cases hw'
        rfl
    · constructor
      · exact fun h => absurd h.symm (numbered_node_ne hnumbered' _ v)
      · exact fun ⟨w, _, hw⟩ => absurd hw (not_variable hnumbered')
  · constructor
    · intro h
      rcases variable_or_numbered hp' hnode' with ⟨v', hv'⟩ | hnumbered'
      · rw [node_of_variable hnode' hv'] at h
        exact absurd h (numbered_node_ne hnumbered _ v')
      · have hsame := numbered_node_inj hnumbered hnumbered' h
        rcases Nat.lt_or_gt_of_ne hij with hlt | hlt
        · have := numberAt_lt hlt hs hnumbered
          omega
        · have := numberAt_lt hlt hs' hnumbered'
          omega
    · exact fun ⟨w, hw, _⟩ => absurd hw (not_variable hnumbered)

end Expander

/-- **When statements share a generated node.** Take a query that is checked and comes to the store,
and the statements of its body, at any depth, as they are expanded.

* A value statement leads to the node of its place, and a link statement has the node of its link
  beside it.
* The value nodes of contents at two places are the same exactly if both contents are the same
  variable.
* The nodes of two links are the same exactly if the subjects, the properties and the objects are
  called the same. This holds where subjects and properties are named apart. -/
theorem shared_nodes_iff {q : Query} {o : Ontology} {checked types : Types} {d : Dialect}
    {size : UInt32} {stored : StoreQuery} (hchecked : q.check checked = .ok ())
    (hstored : q.toStore o types d size = .ok stored) :
    let x : Expander := ⟨o, types⟩
    let ss := q.body.flatten.statements
    (∀ i s, ss[i]? = some s → x.passage s = .ok .value →
      ⟨s.subject, s.predicate, (x.node s (x.numberAt ss i)).1⟩ ∈ stored.content.body.statements) ∧
    (∀ s ∈ ss, ∀ property, x.passage s = .ok (.link property) →
      ⟨.var (.linkValue s.subject property s.object), .ofIri Rdf.object, s.object⟩ ∈
        stored.content.body.statements) ∧
    (∀ i j s s', i ≠ j → ss[i]? = some s → ss[j]? = some s' → x.passage s = .ok .value →
      x.passage s' = .ok .value → x.objectIsNode s = false → x.objectIsNode s' = false →
      ((x.node s (x.numberAt ss i)).1 = (x.node s' (x.numberAt ss j)).1 ↔
        ∃ v, s.object = .var v ∧ s'.object = .var v)) ∧
    ∀ s ∈ ss, ∀ s' ∈ ss, ∀ property property', x.passage s = .ok (.link property) →
      x.passage s' = .ok (.link property') → s.subject.NamedApart → s'.subject.NamedApart →
      Variable.Apart (Iri.plainName property.localName) →
      Variable.Apart (Iri.plainName property'.localName) →
      (Variable.linkValue s.subject property s.object =
          .linkValue s'.subject property' s'.object ↔
        s.subject.baseName = s'.subject.baseName ∧
        Iri.plainName property.localName = Iri.plainName property'.localName ∧
        s.object.baseName = s'.object.baseName) := by
  intro x ss
  obtain ⟨expanded, hexpanded, hgains, _⟩ := Query.toStore_ok hstored
  obtain ⟨⟨expanded, k⟩, hrun, rfl⟩ := map_eq_ok.1 hexpanded
  obtain ⟨owns, hturn, hsubset⟩ := Expander.writesInTurn_of_expandGroup hrun
  have inBody : ∀ {t : Statement}, t ∈ expanded.statements → t ∈ stored.content.body.statements :=
    fun ht => mem_body_of_expanded hgains (Group.mem_withPermissions ht List.mem_cons_self)
  have unreserved : ∀ {s : Statement}, s ∈ ss → ∀ v, s.subject = .var v → v.isReserved = false := by
    intro s hs v hv
    have hwritten : q.Writes v := Query.writes_of_mentions (List.mem_append_left _ hs)
      (Statement.mentions_eq_true.2 (.inl hv))
    exact hwritten.not_reserved hchecked
  refine ⟨?_, ?_, ?_, ?_⟩
  · intro i s hs hp
    obtain ⟨own, hmem, k', hown⟩ := hturn.at hs
    rw [Nat.zero_add] at hown
    exact inBody (hsubset own hmem (Expander.toNode_mem hp hown))
  · intro s hs property hp
    obtain ⟨i, hi⟩ := List.getElem?_of_mem hs
    obtain ⟨own, hmem, k', hown⟩ := hturn.at hi
    apply inBody (hsubset own hmem _)
    obtain ⟨hd, _⟩ | ⟨hv, _⟩ | ⟨property', _, hl, _, rfl⟩ := x.expandStatement_ok hown
    · cases hp.symm.trans hd
    · cases hp.symm.trans hv
    · cases hp.symm.trans hl
      exact Group.mem_statements
        (List.mem_cons_of_mem _ (List.mem_cons_of_mem _ List.mem_cons_self))
  · intro i j s s' hij hs hs' hp hp' hnode hnode'
    exact Expander.node_eq_iff hij hs hs' hp hp' hnode hnode'
  · intro s hs s' hs' property property' _ _ hsubject hsubject' hproperty hproperty'
    exact Variable.linkValue_eq_iff (hsubject.apart (unreserved hs))
      (hsubject'.apart (unreserved hs')) hproperty hproperty'

/-- An ontology in which resources have neighbours. -/
def neighbours : Definitions where
  properties :=
    [{ iri := "http://www.knora.org/ontology/0001/house#hasNeighbour"
       superproperties := [Base.hasLinkTo], objectType := some Base.resource },
     { iri := "http://www.knora.org/ontology/0001/house#hasNeighbourValue"
       superproperties := [Base.hasLinkToValue], objectType := some Base.linkValue }]

def hasNeighbour (object : Entity) : Statement :=
  ⟨.var ⟨"r"⟩, .ofIri "http://0.0.0.0:3333/ontology/0001/house/simple/v2#hasNeighbour", object⟩

/-- Asks for resources with some neighbours. -/
def neighbourQuery (objects : List Entity) : Query where
  schema := .simple
  template := [⟨.var ⟨"r"⟩, .ofIri (Simple.vocabulary ++ "isMainResource"), .lit (.boolean true)⟩]
  body := objects.map fun object => .statement (hasNeighbour object)

/-- The statement is a link by `hasNeighbour`. -/
def Expander.LinksNeighbour (x : Expander) (s : Statement) : Prop :=
  (x.passage s).toOption = some (.link "http://www.knora.org/ontology/0001/house#hasNeighbour")

instance (x : Expander) (s : Statement) : Decidable (x.LinksNeighbour s) :=
  inferInstanceAs (Decidable (_ = _))

theorem Expander.LinksNeighbour.passage_eq {x : Expander} {s : Statement} (h : x.LinksNeighbour s) :
    x.passage s = .ok (.link "http://www.knora.org/ontology/0001/house#hasNeighbour") :=
  eq_ok_of_toOption h

/-- The links to a fixed neighbour and to any other one have nodes of their own. -/
theorem shared_nodes_iff_neighbours :
    let villa := hasNeighbour (.ofIri "http://rdfh.ch/0001/villa")
    let other := hasNeighbour (.var ⟨"n"⟩)
    let q := neighbourQuery [villa.object, other.object]
    let property := "http://www.knora.org/ontology/0001/house#hasNeighbour"
    ∃ o types stored, q.check types = .ok () ∧
      q.toStore o types .graphDb defaultPageSize = .ok stored ∧
      Variable.linkValue villa.flatten.subject property villa.flatten.object ≠
        .linkValue other.flatten.subject property other.flatten.object := by
  intro villa other q property
  obtain ⟨o, types, stored, _, _, hchecked, hstored, hvilla, hother⟩ :=
    q.exists_stored .graphDb neighbours (fun o types _ =>
      Expander.LinksNeighbour ⟨o, types⟩ villa.flatten ∧
        Expander.LinksNeighbour ⟨o, types⟩ other.flatten) (by decide +kernel)
  have hmem : villa.flatten ∈ q.body.flatten.statements ∧
      other.flatten ∈ q.body.flatten.statements := by decide +kernel
  have hproperty : Variable.Apart (Iri.plainName (Iri.localName property)) := by decide +kernel
  have hnodes := (shared_nodes_iff hchecked hstored).2.2.2 _ hmem.1 _ hmem.2 property property
    hvilla.passage_eq hother.passage_eq (by decide +kernel) (by decide +kernel) hproperty hproperty
  refine ⟨o, types, stored, hchecked, hstored, fun h => ?_⟩
  exact absurd (hnodes.1 h).2.2 (by decide +kernel)

/-- **Links to different resources can share their node.** The IRIs of two neighbours differ in the
project and not in the local name, so the store is asked for one link that leads to both. -/
theorem neighbours_share_link_node :
    let first : Entity := .ofIri "http://rdfh.ch/0001/villa"
    let second : Entity := .ofIri "http://rdfh.ch/0002/villa"
    let q := neighbourQuery [first, second]
    let node : Entity := .var ⟨"r__hasNeighbour__villa__LinkValue"⟩
    ∃ o types stored, Ontology.build neighbours = .ok o ∧ q.inferTypes o 32 = .ok types ∧
      q.check types = .ok () ∧ q.toStore o types .graphDb defaultPageSize = .ok stored ∧
      (hasNeighbour first).flatten ≠ (hasNeighbour second).flatten ∧
      (∀ s ∈ q.body.flatten.statements, Expander.LinksNeighbour ⟨o, types⟩ s) ∧
      ⟨node, .ofIri Rdf.object, first⟩ ∈ stored.content.body.statements ∧
      ⟨node, .ofIri Rdf.object, second⟩ ∈ stored.content.body.statements := by
  intro first second q node
  exact q.exists_stored .graphDb neighbours (fun o types stored =>
    (hasNeighbour first).flatten ≠ (hasNeighbour second).flatten ∧
    (∀ s ∈ q.body.flatten.statements, Expander.LinksNeighbour ⟨o, types⟩ s) ∧
    ⟨node, .ofIri Rdf.object, first⟩ ∈ stored.content.body.statements ∧
    ⟨node, .ofIri Rdf.object, second⟩ ∈ stored.content.body.statements) (by decide +kernel)

end OntoQuery
