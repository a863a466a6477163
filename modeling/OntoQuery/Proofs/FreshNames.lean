import OntoQuery.Proofs.Expansion
import OntoQuery.Proofs.Naming

/-!
# The variables that expansion makes

Expansion makes a variable for each value that is read by its content, and one for each link
(`Expander.hidden`). If contents have different names and links have different names, all of these
are different (`Expander.nodup_hiddenIn`): nodes of contents, numbered nodes and links end
differently, and numbers do not repeat. A variable for a newer version is none of them.
-/

namespace OntoQuery

namespace Variable

/-- The digits that a name ends with, the last one first. -/
def trailingDigits (v : Variable) : List Char :=
  v.name.toList.reverse.takeWhile Char.isDigit

theorem name_joined (parts : List String) (last : String) :
    ∃ before, (joined (parts ++ [last])).name.toList = before ++ last.toList := by
  induction parts with
  | nil => exact ⟨[], rfl⟩
  | cons part parts ih =>
    obtain ⟨before, hbefore⟩ := ih
    obtain ⟨first, rest, hrest⟩ := List.exists_cons_of_ne_nil (List.append_ne_nil_of_right_ne_nil
      parts (List.cons_ne_nil last []))
    unfold joined at hbefore ⊢
    rw [hrest] at hbefore
    rw [List.cons_append, hrest, String.intercalate_cons_cons, String.toList_append, hbefore,
      ← List.append_assoc]
    exact ⟨_, rfl⟩

/-- A numbered name ends with its number. -/
theorem trailingDigits_numbered (first second : String) (index : Nat) :
    (joined [first, second, "valueNode" ++ toString index]).trailingDigits =
      (Nat.toDigits 10 index).reverse := by
  have hdigits : (toString index).toList = Nat.toDigits 10 index := Nat.toList_repr
  have hall : ∀ c ∈ (Nat.toDigits 10 index).reverse, c.isDigit = true := by
    intro c hc
    exact Nat.isDigit_of_mem_toDigits (by decide) (by decide) (List.mem_reverse.1 hc)
  obtain ⟨before, hname⟩ := name_joined [first, second] ("valueNode" ++ toString index)
  have hword : "valueNode".toList.reverse = 'e' :: "valueNod".toList.reverse := rfl
  change List.takeWhile Char.isDigit
    (joined ([first, second] ++ ["valueNode" ++ toString index])).name.toList.reverse = _
  rw [hname, String.toList_append, hdigits, List.reverse_append, List.reverse_append,
    List.append_assoc, List.takeWhile_append_of_pos hall, hword, List.cons_append,
    List.takeWhile_cons_of_neg (by decide), List.append_nil]

theorem numbered_inj {first second first' second' : String} {index index' : Nat}
    (h : joined [first, second, "valueNode" ++ toString index] =
      joined [first', second', "valueNode" ++ toString index']) : index = index' := by
  have hdigits := congrArg trailingDigits h
  rw [trailingDigits_numbered, trailingDigits_numbered, List.reverse_inj] at hdigits
  simpa using congrArg (fun digits => Nat.ofDigitChars 10 digits 0) hdigits

/-- The node of a content is told apart by the content. -/
theorem contentNode_inj {u v : Variable}
    (h : joined [u.name, "valueNode"] = joined [v.name, "valueNode"]) : u = v := by
  have hname : u.name ++ separator ++ "valueNode" = v.name ++ separator ++ "valueNode" :=
    congrArg name h
  have hlist := congrArg String.toList hname
  simp only [String.toList_append, List.append_assoc, List.append_cancel_right_eq] at hlist
  cases u
  cases v
  exact congrArg mk (String.toList_injective hlist)

/-- A node of a content and a link have names of different endings. -/
theorem contentNode_ne_linkValue (u : Variable) (subject : Entity) (property : Iri)
    (object : Entity) : joined [u.name, "valueNode"] ≠ linkValue subject property object := by
  intro h
  obtain ⟨before, hnode⟩ := name_joined [u.name] "valueNode"
  obtain ⟨before', hlink⟩ :=
    name_joined [subject.baseName, Iri.plainName property.localName, object.baseName] "LinkValue"
  have hlist : before ++ "valueNode".toList = before' ++ "LinkValue".toList :=
    hnode.symm.trans ((congrArg (·.name.toList) h).trans hlink)
  have hword := (List.append_inj' hlist (by decide)).2
  revert hword
  decide

theorem ending_numbered (first second : String) (index : Nat) :
    ∃ c, (joined [first, second, "valueNode" ++ toString index]).ending = some c ∧
      c.isDigit = true := by
  have hdigits : (toString index).toList = Nat.toDigits 10 index := Nat.toList_repr
  obtain ⟨c, hc⟩ : ∃ c, (Nat.toDigits 10 index).getLast? = some c :=
    ⟨_, List.getLast?_eq_some_getLast Nat.toDigits_ne_nil⟩
  refine ⟨c, ending_joined [first, second] ?_, ?_⟩
  · rw [String.toList_append, List.getLast?_append, hdigits, hc, Option.some_or]
  · exact Nat.isDigit_of_mem_toDigits (by decide) (by decide) (List.mem_of_getLast? hc)

theorem numbered_ne_of_ending {first second : String} {index : Nat} {v : Variable} {c : Char}
    (hv : v.ending = some c) (hc : c.isDigit = false) :
    joined [first, second, "valueNode" ++ toString index] ≠ v := by
  rintro rfl
  obtain ⟨d, hd, hdigit⟩ := ending_numbered first second index
  cases hd.symm.trans hv
  exact Bool.false_ne_true (hc.symm.trans hdigit)

end Variable

namespace Expander
variable (x : Expander)

/-- The variable that expansion makes for a statement, when `n` nodes are numbered before it: the
node of a value that is read by its content, or of a link. -/
def hidden (n : Nat) (s : Statement) : List Variable :=
  match x.passage s with
  | .ok .value => if x.objectIsNode s then [] else (x.node s n).1.var?.toList
  | .ok (.link property) => [.linkValue s.subject property s.object]
  | _ => []

/-- The number of numbered nodes after a statement. -/
def numberedAfter (n : Nat) (s : Statement) : Nat :=
  match x.passage s with
  | .ok .value => (x.node s n).2
  | _ => n

/-- The variables that expansion makes for statements one after the other. -/
def hiddenIn : Nat → List Statement → List Variable
  | _, [] => []
  | n, s :: ss => x.hidden n s ++ hiddenIn (x.numberedAfter n s) ss

/-- The contents by whose name a node is made: variables in value statements that are no nodes. -/
def contents (ss : List Statement) : List Variable :=
  ss.filterMap fun s =>
    match x.passage s with
    | .ok .value => if x.objectIsNode s then none else s.object.var?
    | _ => none

/-- The nodes that are made for links. -/
def linkNames (ss : List Statement) : List Variable :=
  ss.filterMap fun s =>
    match x.passage s with
    | .ok (.link property) => some (.linkValue s.subject property s.object)
    | _ => none

theorem hiddenIn_append (n : Nat) (ss ss' : List Statement) :
    x.hiddenIn n (ss ++ ss') = x.hiddenIn n ss ++ x.hiddenIn (ss.foldl x.numberedAfter n) ss' := by
  induction ss generalizing n with
  | nil => rfl
  | cons s ss ih =>
    rw [List.cons_append, hiddenIn, hiddenIn, ih, List.append_assoc, List.foldl_cons]

/-! ## How many nodes are numbered -/

theorem numberedAfter_of_expandStatement {s : Statement} {n k : Nat} {made : Group}
    (h : x.expandStatement s n = .ok (made, k)) : k = x.numberedAfter n s := by
  unfold numberedAfter
  cases x.expandStatement_eq_ok.1 h with
  | direct hp => rw [hp]
  | node hp => rw [hp]
  | content hp => rw [hp]
  | link hp => rw [hp]

theorem numbered_of_expandGroups {gs : List Group} {marked : List Variable}
    (hall : ∀ g ∈ gs, ∀ {n k : Nat} {out : Group}, x.expandGroup g marked n = .ok (out, k) →
      k = g.statements.foldl x.numberedAfter n)
    {n k : Nat} {outs : List Group} (h : x.expandGroups gs marked n = .ok (outs, k)) :
    k = (gs.flatMap Group.statements).foldl x.numberedAfter n := by
  induction gs generalizing n outs with
  | nil =>
    rw [expandGroups] at h
    cases h
    rfl
  | cons g gs ih =>
    obtain ⟨inner, n', inners, hinner, hinners, rfl⟩ := expandGroups_cons_ok.1 h
    rw [List.flatMap_cons, List.foldl_append, ← hall g List.mem_cons_self hinner]
    exact ih (fun g' hg' => hall g' (List.mem_cons_of_mem _ hg')) hinners

/-- Nodes are numbered statement by statement. -/
theorem numbered_of_expandGroup {g : Group} {marked : List Variable} {n k : Nat} {out : Group}
    (h : x.expandGroup g marked n = .ok (out, k)) : k = g.statements.foldl x.numberedAfter n := by
  induction g using Group.by_patterns generalizing marked n k out with
  | nil =>
    rw [expandGroup] at h
    cases h
    rfl
  | statement s ps ih =>
    obtain ⟨first, n', rest, hfirst, hrest, rfl⟩ := expandGroup_cons_ok.1 h
    obtain ⟨_, made, hmade, rfl⟩ := x.expandPattern_ok hfirst
    rw [Group.statements_statement, List.foldl_cons, ← x.numberedAfter_of_expandStatement hmade]
    exact ih hrest
  | optional g ps ihg ih =>
    obtain ⟨first, n', rest, hfirst, hrest, rfl⟩ := expandGroup_cons_ok.1 h
    obtain ⟨_, inner, hinner, rfl⟩ := x.expandPattern_ok hfirst
    rw [Group.statements_optional, List.foldl_append, ← ihg hinner]
    exact ih hrest
  | union gs ps ihg ih =>
    obtain ⟨first, n', rest, hfirst, hrest, rfl⟩ := expandGroup_cons_ok.1 h
    obtain ⟨_, inners, hinners, rfl⟩ := x.expandPattern_ok hfirst
    rw [Group.statements_union, List.foldl_append,
      ← x.numbered_of_expandGroups (fun g hg => ihg g hg) hinners]
    exact ih hrest
  | filter e ps ih =>
    obtain ⟨first, n', rest, hfirst, hrest, rfl⟩ := expandGroup_cons_ok.1 h
    obtain ⟨_, rfl, rfl⟩ := x.expandPattern_ok hfirst
    rw [Group.statements_filter]
    exact ih hrest
  | minus g ps ihg ih =>
    obtain ⟨first, n', rest, hfirst, hrest, rfl⟩ := expandGroup_cons_ok.1 h
    obtain ⟨_, inner, hinner, rfl⟩ := x.expandPattern_ok hfirst
    rw [Group.statements_minus, List.foldl_append, ← ihg hinner]
    exact ih hrest

/-! ## Hidden variables are different -/

theorem contents_cons (s : Statement) (ss : List Statement) :
    x.contents (s :: ss) = x.contents [s] ++ x.contents ss := by
  rw [← List.singleton_append, contents, List.filterMap_append]
  rfl

theorem linkNames_cons (s : Statement) (ss : List Statement) :
    x.linkNames (s :: ss) = x.linkNames [s] ++ x.linkNames ss := by
  rw [← List.singleton_append, linkNames, List.filterMap_append]
  rfl

theorem linkValue_of_mem_linkNames {ss : List Statement} {v : Variable} (h : v ∈ x.linkNames ss) :
    ∃ subject property object, v = .linkValue subject property object := by
  obtain ⟨s, _, hs⟩ := List.mem_filterMap.1 h
  split at hs
  · cases hs
    exact ⟨_, _, _, rfl⟩
  · cases hs

theorem le_numberedAfter (n : Nat) (s : Statement) : n ≤ x.numberedAfter n s := by
  unfold numberedAfter
  split
  · unfold node
    split
    · exact Nat.le_refl n
    · split
      · exact Nat.le_refl n
      · exact Nat.le_succ n
  · exact Nat.le_refl n

theorem nodup_hidden (n : Nat) (s : Statement) : (x.hidden n s).Nodup := by
  unfold hidden
  split
  · split
    · exact List.nodup_nil
    · cases (x.node s n).1.var? with
      | none => exact List.nodup_nil
      | some v => exact List.pairwise_singleton _ v
  · exact List.pairwise_singleton _ _
  · exact List.nodup_nil

/-- A hidden variable is the node of a content, the node of the next number, or a link. -/
theorem mem_hidden {n : Nat} {s : Statement} {v : Variable} (h : v ∈ x.hidden n s) :
    (∃ u ∈ x.contents [s], v = .joined [u.name, "valueNode"]) ∨
    (∃ first second, v = .joined [first, second, "valueNode" ++ toString (n + 1)] ∧
      x.numberedAfter n s = n + 1) ∨
    v ∈ x.linkNames [s] := by
  unfold hidden at h
  split at h
  · rename_i hpassage
    split at h
    · cases h
    · rename_i hnode
      rw [Option.mem_toList, node, if_neg hnode] at h
      cases hobject : s.object with
      | var u =>
        rw [hobject] at h
        cases h
        refine .inl ⟨u, ?_, rfl⟩
        simp [contents, hpassage, hnode, hobject, Entity.var?]
      | iri ref =>
        rw [hobject] at h
        cases h
        refine .inr (.inl ⟨_, _, rfl, ?_⟩)
        simp [numberedAfter, hpassage, node, hnode, hobject, Entity.isVariable, Entity.var?]
      | lit l =>
        rw [hobject] at h
        cases h
        refine .inr (.inl ⟨_, _, rfl, ?_⟩)
        simp [numberedAfter, hpassage, node, hnode, hobject, Entity.isVariable, Entity.var?]
  · rename_i property hpassage
    rw [List.mem_singleton] at h
    subst h
    exact .inr (.inr (by simp [linkNames, hpassage]))
  · cases h

theorem mem_hiddenIn {n : Nat} {ss : List Statement} {v : Variable} (h : v ∈ x.hiddenIn n ss) :
    (∃ u ∈ x.contents ss, v = .joined [u.name, "valueNode"]) ∨
    (∃ first second index, n < index ∧ v = .joined [first, second, "valueNode" ++ toString index]) ∨
    v ∈ x.linkNames ss := by
  induction ss generalizing n with
  | nil => cases h
  | cons s ss ih =>
    rw [contents_cons, linkNames_cons]
    rw [hiddenIn, List.mem_append] at h
    rcases h with h | h
    · obtain ⟨u, hu, rfl⟩ | ⟨first, second, rfl, _⟩ | hlink := x.mem_hidden h
      · exact .inl ⟨u, List.mem_append_left _ hu, rfl⟩
      · exact .inr (.inl ⟨first, second, n + 1, Nat.lt_succ_self n, rfl⟩)
      · exact .inr (.inr (List.mem_append_left _ hlink))
    · obtain ⟨u, hu, rfl⟩ | ⟨first, second, index, hindex, rfl⟩ | hlink := ih h
      · exact .inl ⟨u, List.mem_append_right _ hu, rfl⟩
      · exact .inr
          (.inl ⟨first, second, index, Nat.lt_of_le_of_lt (x.le_numberedAfter n s) hindex, rfl⟩)
      · exact .inr (.inr (List.mem_append_right _ hlink))

/-- **No two statements are expanded with the same variable**, if no two contents and no two links
have the same name. -/
theorem nodup_hiddenIn {n : Nat} {ss : List Statement} (hcontents : (x.contents ss).Nodup)
    (hlinks : (x.linkNames ss).Nodup) : (x.hiddenIn n ss).Nodup := by
  induction ss generalizing n with
  | nil => exact List.nodup_nil
  | cons s ss ih =>
    rw [contents_cons, List.nodup_append] at hcontents
    rw [linkNames_cons, List.nodup_append] at hlinks
    rw [hiddenIn, List.nodup_append]
    refine ⟨x.nodup_hidden n s, ih hcontents.2.1 hlinks.2.1, ?_⟩
    rintro v hfirst _ hrest rfl
    have hcontent : ∀ u : Variable, (Variable.joined [u.name, "valueNode"]).ending = some 'e' :=
      fun u => Variable.ending_joined [u.name] rfl
    obtain ⟨u, hu, rfl⟩ | ⟨first, second, rfl, hafter⟩ | hlink := x.mem_hidden hfirst
    · obtain ⟨u', hu', heq⟩ | ⟨_, _, index, _, heq⟩ | hlink' := x.mem_hiddenIn hrest
      · exact hcontents.2.2 u hu u' hu' (Variable.contentNode_inj heq)
      · exact Variable.numbered_ne_of_ending (hcontent u) (by decide) heq.symm
      · obtain ⟨_, _, _, heq⟩ := x.linkValue_of_mem_linkNames hlink'
        exact Variable.contentNode_ne_linkValue _ _ _ _ heq
    · obtain ⟨u', _, heq⟩ | ⟨_, _, index, hindex, heq⟩ | hlink' := x.mem_hiddenIn hrest
      · exact Variable.numbered_ne_of_ending (hcontent u') (by decide) heq
      · have hsame := Variable.numbered_inj heq
        omega
      · obtain ⟨_, _, _, heq⟩ := x.linkValue_of_mem_linkNames hlink'
        exact Variable.numbered_ne_of_ending (Variable.ending_linkValue _ _ _) (by decide) heq
    · obtain ⟨subject, property, object, hname⟩ := x.linkValue_of_mem_linkNames hlink
      obtain ⟨u', _, heq⟩ | ⟨_, _, index, _, heq⟩ | hlink' := x.mem_hiddenIn hrest
      · exact Variable.contentNode_ne_linkValue _ _ _ _ (heq.symm.trans hname)
      · exact Variable.numbered_ne_of_ending (Variable.ending_linkValue _ _ _) (by decide)
          (heq.symm.trans hname)
      · exact hlinks.2.2 v hlink v hlink' rfl

/-- A hidden variable has a reserved name, which is none for a newer version. -/
theorem hiddenIn_fresh {n : Nat} {ss : List Statement} {v : Variable} (h : v ∈ x.hiddenIn n ss) :
    v.isReserved = true ∧ ∀ node, v ≠ .newerVersion node := by
  have hending : ∀ {c : Char}, v.ending = some c → c ≠ 'r' → ∀ node, v ≠ .newerVersion node := by
    rintro c hc hne node rfl
    exact hne (Option.some.inj (hc.symm.trans (Variable.ending_newerVersion node)))
  obtain ⟨u, _, rfl⟩ | ⟨first, second, index, _, rfl⟩ | hlink := x.mem_hiddenIn h
  · exact ⟨Variable.joined_reserved _ _ _,
      hending (Variable.ending_joined [u.name] rfl) (by decide)⟩
  · obtain ⟨c, hc, hdigit⟩ := Variable.ending_numbered first second index
    refine ⟨Variable.joined_reserved _ _ _, hending hc ?_⟩
    rintro rfl
    exact Bool.false_ne_true hdigit
  · obtain ⟨_, _, _, rfl⟩ := x.linkValue_of_mem_linkNames hlink
    exact ⟨Variable.linkValue_reserved _ _ _, hending (Variable.ending_linkValue _ _ _) (by decide)⟩

end Expander

end OntoQuery
