import OntoQuery.Check.Basic
import OntoQuery.Storage.Naming

/-!
# Generated names

A generated name is made of parts with the separator between them, so it is reserved
(`Variable.joined_reserved`), and no variable of a checked query has it. Each kind of generated
variable has its own last part, so the names of different kinds differ; the last character is enough
to tell permissions from the others (`Variable.ending_permissions`).
-/

namespace OntoQuery

/-- A text is found exactly where it stands. -/
theorem Text.cutAround_isSome {word cs : List Char} :
    (cutAround word cs).isSome = true ↔ word <:+: cs := by
  induction cs with
  | nil =>
    rw [cutAround, Option.isSome_map, List.infix_nil]
    cases word with
    | nil => simp [dropStart]
    | cons c word => simp [dropStart]
  | cons c cs ih =>
    rw [cutAround, List.infix_cons_iff, ← ih]
    cases hd : dropStart word (c :: cs) with
    | some after =>
      have hstart : word <+: c :: cs := ⟨after, (dropStart_eq_some.1 hd).symm⟩
      simp [hstart]
    | none =>
      have hstart : ¬ word <+: c :: cs := by
        rintro ⟨after, hafter⟩
        rw [dropStart_eq_some.2 hafter.symm] at hd
        cases hd
      simp [hstart]

namespace Variable

theorem isReserved_iff {v : Variable} :
    v.isReserved = true ↔ separator.toList <:+: v.name.toList :=
  Text.cutAround_isSome

/-- A name of two or more parts is reserved. -/
theorem joined_reserved (first second : String) (parts : List String) :
    (joined (first :: second :: parts)).isReserved = true := by
  rw [isReserved_iff, joined, String.intercalate_cons_cons, String.toList_append,
    String.toList_append]
  exact ⟨_, _, rfl⟩

theorem valueNode_reserved (subject predicate object : Entity) (index : Nat) :
    (valueNode subject predicate object index).isReserved = true := by
  unfold valueNode
  split <;> exact joined_reserved _ _ _

theorem newerVersion_reserved (node : Entity) : (newerVersion node).isReserved = true :=
  joined_reserved _ _ _

theorem linkValue_reserved (subject : Entity) (property : Iri) (object : Entity) :
    (linkValue subject property object).isReserved = true :=
  joined_reserved _ _ _

theorem permissions_reserved (v : Variable) : v.permissions.isReserved = true :=
  joined_reserved _ _ _

/-- A newer version is never called what the node itself is called. -/
theorem newerVersion_ne (v : Variable) : newerVersion (.var v) ≠ v := by
  intro h
  have hname : v.name ++ separator ++ "newer" = v.name := congrArg Variable.name h
  have hlength : v.name.length + 7 = v.name.length := by
    have := congrArg String.length hname
    rwa [String.length_append, String.length_append] at this
  omega

/-! ## The last character -/

/-- The last character of a name. -/
def ending (v : Variable) : Option Char :=
  v.name.toList.getLast?

theorem ending_joined (parts : List String) {last : String} {c : Char}
    (h : last.toList.getLast? = some c) : (joined (parts ++ [last])).ending = some c := by
  induction parts with
  | nil => exact h
  | cons part parts ih =>
    obtain ⟨first, rest, hrest⟩ := List.exists_cons_of_ne_nil (List.append_ne_nil_of_right_ne_nil
      parts (List.cons_ne_nil last []))
    unfold ending joined at ih ⊢
    rw [hrest] at ih
    rw [List.cons_append, hrest, String.intercalate_cons_cons, String.toList_append,
      List.getLast?_append, ih, Option.some_or]

theorem ending_permissions (v : Variable) : v.permissions.ending = some 's' :=
  ending_joined [_] rfl

theorem ending_orderContent (v : Variable) : v.orderContent.ending = some 't' :=
  ending_joined [_] rfl

theorem ending_newerVersion (node : Entity) : (newerVersion node).ending = some 'r' :=
  ending_joined [_] rfl

theorem ending_linkValue (subject : Entity) (property : Iri) (object : Entity) :
    (linkValue subject property object).ending = some 'e' :=
  ending_joined [_, _, _] rfl

theorem ending_valueNode (subject predicate object : Entity) (index : Nat) :
    ∃ c, (valueNode subject predicate object index).ending = some c ∧
      (c = 'e' ∨ c.isDigit = true) := by
  have hdigits : (toString index).toList = Nat.toDigits 10 index := Nat.toList_repr
  have numbered : ∃ c, ("valueNode" ++ toString index).toList.getLast? = some c ∧
      (c = 'e' ∨ c.isDigit = true) := by
    rw [String.toList_append, List.getLast?_append, hdigits]
    cases hc : (Nat.toDigits 10 index).getLast? with
    | none => exact ⟨'e', rfl, .inl rfl⟩
    | some c =>
      have hdigit := Nat.isDigit_of_mem_toDigits (by decide) (by decide)
        (List.mem_of_getLast? hc)
      exact ⟨c, rfl, .inr hdigit⟩
  obtain ⟨c, hc, hkind⟩ := numbered
  cases object with
  | var v => exact ⟨'e', ending_joined [_] rfl, .inl rfl⟩
  | iri ref => exact ⟨c, ending_joined [_, _] hc, hkind⟩
  | lit l => exact ⟨c, ending_joined [_, _] hc, hkind⟩

theorem orderContent_ne_permissions (u v : Variable) : u.orderContent ≠ v.permissions := by
  intro h
  have := (ending_orderContent u).symm.trans ((congrArg ending h).trans (ending_permissions v))
  cases this

theorem linkValue_ne_permissions (subject : Entity) (property : Iri) (object : Entity)
    (v : Variable) : linkValue subject property object ≠ v.permissions := by
  intro h
  have := (ending_linkValue subject property object).symm.trans
    ((congrArg ending h).trans (ending_permissions v))
  cases this

theorem valueNode_ne_permissions (subject predicate object : Entity) (index : Nat) (v : Variable) :
    valueNode subject predicate object index ≠ v.permissions := by
  intro h
  obtain ⟨c, hc, hkind⟩ := ending_valueNode subject predicate object index
  cases hc.symm.trans ((congrArg ending h).trans (ending_permissions v))
  revert hkind
  decide

end Variable

end OntoQuery
