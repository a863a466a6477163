/-!
# Cutting a text at a fixed part

A text is cut at the first place where a given character or word stands, or freed of a given start
or end. Each function works on the list of characters; the versions on `String` only pack and
unpack.
-/

namespace OntoQuery.Text

/-- The characters before and after the first `mark`. -/
def cutAt (mark : Char) : List Char → Option (List Char × List Char)
  | [] => none
  | c :: cs =>
    if c = mark then some ([], cs)
    else (cutAt mark cs).map fun (before, after) => (c :: before, after)

/-- What follows `start`, if the text begins with it. -/
def dropStart : List Char → List Char → Option (List Char)
  | [], cs => some cs
  | _ :: _, [] => none
  | p :: ps, c :: cs => if p = c then dropStart ps cs else none

/-- What precedes `ending`, if the text ends with it. -/
def dropEnding (ending cs : List Char) : Option (List Char) :=
  (dropStart ending.reverse cs.reverse).map List.reverse

/-- The characters before and after the first place where `word` stands. -/
def cutAround (word : List Char) : List Char → Option (List Char × List Char)
  | [] => (dropStart word []).map ([], ·)
  | c :: cs =>
    match dropStart word (c :: cs) with
    | some after => some ([], after)
    | none => (cutAround word cs).map fun (before, after) => (c :: before, after)

/-- What follows the last `mark`; the whole text if there is none. -/
def afterLast (mark : Char) (cs : List Char) : List Char :=
  (cs.reverse.takeWhile (· != mark)).reverse

/-- The two parts of a text around its first `mark`. -/
def cutAt? (mark : Char) (s : String) : Option (String × String) :=
  (cutAt mark s.toList).map fun (before, after) => (String.ofList before, String.ofList after)

/-- The two parts of a text around the first place where `word` stands. -/
def cutAround? (word s : String) : Option (String × String) :=
  (cutAround word.toList s.toList).map fun (before, after) =>
    (String.ofList before, String.ofList after)

def dropStart? (start s : String) : Option String :=
  (dropStart start.toList s.toList).map String.ofList

def dropEnding? (ending s : String) : Option String :=
  (dropEnding ending.toList s.toList).map String.ofList

def startsWith (s start : String) : Bool :=
  (dropStart start.toList s.toList).isSome

def endsWith (s ending : String) : Bool :=
  (dropEnding ending.toList s.toList).isSome

/-- Whether `word` stands somewhere in the text. -/
def hasWord (s word : String) : Bool :=
  (cutAround word.toList s.toList).isSome

theorem dropStart_eq_some {start cs rest : List Char} :
    dropStart start cs = some rest ↔ cs = start ++ rest := by
  induction start generalizing cs with
  | nil => simp [dropStart, eq_comm]
  | cons p ps ih =>
    cases cs with
    | nil => simp [dropStart]
    | cons c cs =>
      by_cases h : p = c
      · simp [dropStart, h, ih]
      · simp [dropStart, h, Ne.symm h]

theorem dropEnding_eq_some {ending cs rest : List Char} :
    dropEnding ending cs = some rest ↔ cs = rest ++ ending := by
  simp only [dropEnding, Option.map_eq_some_iff, dropStart_eq_some]
  constructor
  · rintro ⟨r, h, rfl⟩
    have := congrArg List.reverse h
    simpa using this
  · intro h
    exact ⟨rest.reverse, by simp [h], by simp⟩

theorem cutAt_eq_some {mark : Char} {cs before after : List Char} :
    cutAt mark cs = some (before, after) ↔ cs = before ++ mark :: after ∧ mark ∉ before := by
  induction cs generalizing before with
  | nil => simp [cutAt]
  | cons c cs ih =>
    by_cases h : c = mark
    · subst h
      cases before with
      | nil => simp [cutAt, eq_comm]
      | cons b bs =>
        simp only [cutAt, if_true, Option.some.injEq, Prod.mk.injEq, reduceCtorEq, false_and,
          List.cons_append, List.cons.injEq, List.mem_cons, not_or, false_iff]
        rintro ⟨⟨rfl, _⟩, hne, _⟩
        exact hne rfl
    · cases before with
      | nil => simp [cutAt, h]
      | cons b bs =>
        simp only [cutAt, h, if_false, Option.map_eq_some_iff, Prod.exists, Prod.mk.injEq,
          List.cons.injEq, List.cons_append, List.mem_cons, not_or]
        constructor
        · rintro ⟨x, y, hxy, ⟨rfl, rfl⟩, rfl⟩
          obtain ⟨rfl, hm⟩ := ih.mp hxy
          exact ⟨⟨rfl, rfl⟩, Ne.symm h, hm⟩
        · rintro ⟨⟨rfl, hcs⟩, _, hm⟩
          exact ⟨bs, after, ih.mpr ⟨hcs, hm⟩, ⟨rfl, rfl⟩, rfl⟩

/-- The part before the first `mark` and the part after it are determined by the text. -/
theorem append_mark_inj {mark : Char} {a a' r r' : List Char} (ha : mark ∉ a) (ha' : mark ∉ a')
    (h : a ++ mark :: r = a' ++ mark :: r') : a = a' ∧ r = r' := by
  have hcut := cutAt_eq_some.2 ⟨h, ha'⟩
  rw [cutAt_eq_some.2 ⟨rfl, ha⟩] at hcut
  cases hcut
  exact ⟨rfl, rfl⟩

end OntoQuery.Text
