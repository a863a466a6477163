import OntoQuery.Compiler
import OntoQuery.Proofs.Group
import OntoQuery.Proofs.Permissions
import OntoQuery.Proofs.Terms

/-!
# The layout of patterns can be read back

A group is written on lines, and every pattern announces itself on its first line: a statement by
the first character of a term, the other patterns by their word or brace (`Sparql.mark`). What is
inside a block is indented deeper than the brace that closes the block, so nothing inside can be
taken for it. Two groups with the same text are therefore the same pattern by pattern
(`Sparql.reads`), up to what the text does not show (`Sparql.SamePattern`): schemas of IRIs, and
filters that are written alike. A UNION of nothing is written as nothing, so it has to be excluded
(`Group.Solid`).

The same facts find the WHERE block in the text of a whole query (`Sparql.whereBlock`), and it is
one block for the two queries of a page. `text_determines_patterns` puts the results together.
-/

namespace OntoQuery

namespace Text

/-- The lines of a text, without the line breaks. -/
def linesOf : List Char → List (List Char)
  | [] => []
  | '\n' :: cs => [] :: linesOf cs
  | c :: cs =>
    match linesOf cs with
    | [] => [[c]]
    | l :: ls => (c :: l) :: ls

theorem linesOf_line {l : List Char} (h : '\n' ∉ l) (rest : List Char) :
    linesOf (l ++ '\n' :: rest) = l :: linesOf rest := by
  induction l with
  | nil => rfl
  | cons c l ih =>
    simp only [List.mem_cons, not_or] at h
    rw [List.cons_append, linesOf.eq_3 _ _ (fun hc => h.1 hc.symm), ih h.2]

end Text

namespace Sparql

/-! ## Lines -/

/-- The text has no line break in it. -/
def OneLine (text : String) : Prop :=
  '\n' ∉ text.toList

instance (text : String) : Decidable (OneLine text) :=
  inferInstanceAs (Decidable (¬ _))

theorem oneLine_append {a b : String} : OneLine (a ++ b) ↔ OneLine a ∧ OneLine b := by
  simp [OneLine]

theorem oneLine_intercalate {between : String} (hbetween : OneLine between) {parts : List String}
    (h : ∀ part ∈ parts, OneLine part) : OneLine (between.intercalate parts) := by
  rw [OneLine, String.toList_intercalate]
  induction parts with
  | nil => simp
  | cons part parts ih =>
    have hpart : '\n' ∉ part.toList := h part List.mem_cons_self
    have hparts := ih fun p hp => h p (List.mem_cons_of_mem _ hp)
    cases parts with
    | nil => simpa using hpart
    | cons next parts =>
      have hbreak : '\n' ∉ between.toList := hbetween
      simp_all

@[simp] theorem line_zero (text : String) : line 0 text = text := by
  simp [line]

theorem toList_line_succ (d : Nat) (text : String) :
    (line (d + 1) text).toList = ' ' :: ' ' :: ' ' :: ' ' :: (line d text).toList := by
  simp [line, List.replicate_succ]

theorem line_inj {d : Nat} {text text' : String} (h : line d text = line d text') :
    text = text' := by
  have hchars := congrArg String.toList h
  simp only [line, String.toList_append] at hchars
  exact String.toList_injective (List.append_cancel_left hchars)

theorem oneLine_line {text : String} (h : OneLine text) (d : Nat) : OneLine (line d text) := by
  induction d with
  | zero => simpa using h
  | succ d ih => simpa [OneLine, toList_line_succ] using ih

/-- A brace that closes a block is indented less than the lines inside. -/
theorem closing_ne_line {k d : Nat} (h : k < d) (text : String) : line k "\x7d" ≠ line d text := by
  intro heq
  replace heq := congrArg String.toList heq
  induction k generalizing d with
  | zero =>
    obtain ⟨d, rfl⟩ := Nat.exists_eq_add_one.2 h
    rw [toList_line_succ] at heq
    simp at heq
  | succ k ih =>
    obtain ⟨d, rfl⟩ := Nat.exists_eq_add_one_of_ne_zero (Nat.ne_zero_of_lt h)
    rw [toList_line_succ, toList_line_succ] at heq
    exact ih (Nat.lt_of_succ_lt_succ h) (by simpa using heq)

/-- The lines of a text. -/
def textLines (text : String) : List String :=
  (Text.linesOf text.toList).map String.ofList

/-- Lines that are joined are found again, whatever text follows them. -/
theorem textLines_joinLines {ls : List String} (h : ∀ l ∈ ls, OneLine l) (rest : String) :
    textLines (joinLines ls ++ rest) = ls ++ textLines rest := by
  induction ls with
  | nil => simp [joinLines]
  | cons l ls ih =>
    have hl := h l List.mem_cons_self
    have hls := ih fun l' hl' => h l' (List.mem_cons_of_mem _ hl')
    have hchars : (joinLines (l :: ls) ++ rest).toList =
        l.toList ++ '\n' :: (joinLines ls ++ rest).toList := by
      simp [joinLines]
    rw [textLines, hchars, Text.linesOf_line hl, List.map_cons, String.ofList_toList]
    exact congrArg (l :: ·) hls

/-! ## What is on the lines of a group -/

theorem expression_not_ok {inner : Expression} {text : String}
    (h : expression (.not inner) = .ok text) :
    ∃ t, expression inner = .ok t ∧ (text = "!" ++ t ∨ text = "!(" ++ t ++ ")") := by
  have plain : (expression inner >>= fun t => pure ("!" ++ t)) = .ok text →
      ∃ t, expression inner = .ok t ∧ (text = "!" ++ t ∨ text = "!(" ++ t ++ ")") := by
    intro h
    obtain ⟨t, ht, h⟩ := bind_eq_ok.1 h
    exact ⟨t, ht, .inl (pure_eq_ok.1 h).symm⟩
  cases inner with
  | entity e => exact plain h
  | compare left op right =>
    obtain ⟨l, hl, h⟩ := bind_eq_ok.1 h
    obtain ⟨r, hr, h⟩ := bind_eq_ok.1 h
    refine ⟨l ++ " " ++ op.symbol ++ " " ++ r, bind_eq_ok.2 ⟨l, hl, bind_eq_ok.2 ⟨r, hr, rfl⟩⟩,
      .inr ?_⟩
    rw [← pure_eq_ok.1 h]
    simp [String.append_assoc]
  | and left right => exact plain h
  | or left right => exact plain h
  | not inner => exact plain h
  | call function args => exact plain h

mutual

theorem oneLine_expression :
    ∀ (e : Expression) {text : String}, expression e = .ok text → OneLine text
  | .entity e, text, h => (written_of_ok h).oneLine
  | .compare left op right, text, h => by
    obtain ⟨l, hl, h⟩ := bind_eq_ok.1 h
    obtain ⟨r, hr, h⟩ := bind_eq_ok.1 h
    cases pure_eq_ok.1 h
    have hop : OneLine op.symbol := by cases op <;> decide
    simp only [oneLine_append]
    exact ⟨⟨⟨⟨oneLine_expression left hl, by decide⟩, hop⟩, by decide⟩, oneLine_expression right hr⟩
  | .and left right, text, h => by
    obtain ⟨l, hl, h⟩ := bind_eq_ok.1 h
    obtain ⟨r, hr, h⟩ := bind_eq_ok.1 h
    cases pure_eq_ok.1 h
    simp only [oneLine_append]
    exact ⟨⟨⟨⟨by decide, oneLine_expression left hl⟩, by decide⟩, oneLine_expression right hr⟩,
      by decide⟩
  | .or left right, text, h => by
    obtain ⟨l, hl, h⟩ := bind_eq_ok.1 h
    obtain ⟨r, hr, h⟩ := bind_eq_ok.1 h
    cases pure_eq_ok.1 h
    simp only [oneLine_append]
    exact ⟨⟨⟨⟨by decide, oneLine_expression left hl⟩, by decide⟩, oneLine_expression right hr⟩,
      by decide⟩
  | .not inner, text, h => by
    obtain ⟨t, ht, htext⟩ := expression_not_ok h
    have hinner := oneLine_expression inner ht
    rcases htext with rfl | rfl
    · exact oneLine_append.2 ⟨by decide, hinner⟩
    · exact oneLine_append.2 ⟨oneLine_append.2 ⟨by decide, hinner⟩, by decide⟩
  | .call function args, text, h => by
    obtain ⟨texts, hargs, h⟩ := bind_eq_ok.1 h
    cases pure_eq_ok.1 h
    have hname : OneLine function.name := by cases function <;> decide
    have hlist := oneLine_intercalate (by decide : OneLine ", ") (oneLine_expressions args hargs)
    simp only [oneLine_append]
    exact ⟨⟨⟨hname, by decide⟩, hlist⟩, by decide⟩

theorem oneLine_expressions : ∀ (es : List Expression) {texts : List String},
    expressions es = .ok texts → ∀ text ∈ texts, OneLine text
  | [], texts, h => by
    cases h
    simp
  | e :: es, texts, h => by
    obtain ⟨first, hfirst, h⟩ := bind_eq_ok.1 h
    obtain ⟨rest, hrest, h⟩ := bind_eq_ok.1 h
    cases pure_eq_ok.1 h
    exact List.forall_mem_cons.2 ⟨oneLine_expression e hfirst, oneLine_expressions es hrest⟩

end

theorem statementLine_ok {d : Nat} {s : Statement} {l : String} (h : statementLine d s = .ok l) :
    ∃ a b c, term s.subject = .ok a ∧ term s.predicate = .ok b ∧ term s.object = .ok c ∧
      l = line d (a ++ " " ++ b ++ " " ++ c ++ " .") := by
  obtain ⟨a, ha, h⟩ := bind_eq_ok.1 h
  obtain ⟨b, hb, h⟩ := bind_eq_ok.1 h
  obtain ⟨c, hc, h⟩ := bind_eq_ok.1 h
  exact ⟨a, b, c, ha, hb, hc, (pure_eq_ok.1 h).symm⟩

theorem groupLines_cons_ok {d : Nat} {p : Pattern} {ps : Group} {ls : List String}
    (h : groupLines d (p :: ps) = .ok ls) :
    ∃ first rest, patternLines d p = .ok first ∧ groupLines d ps = .ok rest ∧
      ls = first ++ rest := by
  obtain ⟨first, hfirst, h⟩ := bind_eq_ok.1 h
  obtain ⟨rest, hrest, h⟩ := bind_eq_ok.1 h
  exact ⟨first, rest, hfirst, hrest, (pure_eq_ok.1 h).symm⟩

/-- The block of the first alternative, then either nothing or UNION and the others. -/
theorem alternativeLines_cons_ok {d : Nat} {g : Group} {gs : List Group} {ls : List String}
    (h : alternativeLines d (g :: gs) = .ok ls) :
    ∃ inside more, groupLines (d + 1) g = .ok inside ∧ ls = block d "" inside ++ more ∧
      (gs = [] ∧ more = [] ∨
        gs ≠ [] ∧ ∃ rest, alternativeLines d gs = .ok rest ∧ more = line d "UNION" :: rest) := by
  cases gs with
  | nil =>
    obtain ⟨inside, hinside, h⟩ := bind_eq_ok.1 h
    exact ⟨inside, [], hinside, by simpa using (pure_eq_ok.1 h).symm, .inl ⟨rfl, rfl⟩⟩
  | cons g' gs =>
    obtain ⟨inside, hinside, h⟩ := bind_eq_ok.1 h
    obtain ⟨rest, hrest, h⟩ := bind_eq_ok.1 h
    exact ⟨inside, _, hinside, (pure_eq_ok.1 h).symm, .inr ⟨by simp, rest, hrest, rfl⟩⟩

/-- A line at this level of nesting or deeper. -/
def Within (d : Nat) (l : String) : Prop :=
  OneLine l ∧ ∃ k text, d ≤ k ∧ l = line k text

theorem within_line {text : String} (h : OneLine text) (d : Nat) : Within d (line d text) :=
  ⟨oneLine_line h d, d, text, Nat.le_refl d, rfl⟩

theorem within_block {d : Nat} {head : String} {inside : List String} (hhead : OneLine head)
    (h : ∀ l ∈ inside, Within (d + 1) l) : ∀ l ∈ block d head inside, Within d l := by
  have hopening : OneLine (head ++ "\x7b") := oneLine_append.2 ⟨hhead, by decide⟩
  intro l hl
  simp only [block, List.cons_append, List.mem_cons, List.mem_append, List.not_mem_nil, or_false]
    at hl
  rcases hl with rfl | hl | rfl
  · exact within_line hopening d
  · obtain ⟨hline, k, text, hk, rfl⟩ := h l hl
    exact ⟨hline, k, text, Nat.le_of_succ_le hk, rfl⟩
  · exact within_line (by decide) d

theorem within_statementLine {d : Nat} {s : Statement} {l : String}
    (h : statementLine d s = .ok l) : Within d l := by
  obtain ⟨a, b, c, ha, hb, hc, rfl⟩ := statementLine_ok h
  apply within_line
  simp only [oneLine_append]
  exact ⟨⟨⟨⟨⟨(written_of_ok ha).oneLine, by decide⟩, (written_of_ok hb).oneLine⟩, by decide⟩,
    (written_of_ok hc).oneLine⟩, by decide⟩

theorem within_alternativeLines {gs : List Group} {d : Nat}
    (hgs : ∀ g ∈ gs, ∀ ls, groupLines (d + 1) g = .ok ls → ∀ l ∈ ls, Within (d + 1) l)
    {ls : List String} (h : alternativeLines d gs = .ok ls) : ∀ l ∈ ls, Within d l := by
  induction gs generalizing ls with
  | nil =>
    cases h
    simp
  | cons g gs ih =>
    obtain ⟨inside, more, hinside, rfl, hmore⟩ := alternativeLines_cons_ok h
    have hblock := within_block (by decide : OneLine "") (hgs g List.mem_cons_self _ hinside)
    rw [List.forall_mem_append]
    refine ⟨hblock, ?_⟩
    rcases hmore with ⟨_, rfl⟩ | ⟨_, rest, hrest, rfl⟩
    · simp
    · exact List.forall_mem_cons.2 ⟨within_line (by decide) d,
        ih (fun g' hg' => hgs g' (List.mem_cons_of_mem _ hg')) hrest⟩

/-- The lines of a group stand at its level of nesting or deeper. -/
theorem within_groupLines {g : Group} : ∀ {d : Nat} {ls : List String}, groupLines d g = .ok ls →
    ∀ l ∈ ls, Within d l := by
  induction g using Group.by_patterns with
  | nil =>
    intro d ls h
    cases h
    simp
  | statement s ps ih =>
    intro d ls h
    obtain ⟨first, rest, hfirst, hrest, rfl⟩ := groupLines_cons_ok h
    obtain ⟨l, hl, hfirst⟩ := bind_eq_ok.1 hfirst
    cases pure_eq_ok.1 hfirst
    exact List.forall_mem_cons.2 ⟨within_statementLine hl, ih hrest⟩
  | optional g ps ihg ih =>
    intro d ls h
    obtain ⟨first, rest, hfirst, hrest, rfl⟩ := groupLines_cons_ok h
    obtain ⟨inside, hinside, hfirst⟩ := bind_eq_ok.1 hfirst
    cases pure_eq_ok.1 hfirst
    exact List.forall_mem_append.2 ⟨within_block (by decide) (ihg hinside), ih hrest⟩
  | union gs ps ihg ih =>
    intro d ls h
    obtain ⟨first, rest, hfirst, hrest, rfl⟩ := groupLines_cons_ok h
    exact List.forall_mem_append.2
      ⟨within_alternativeLines (fun g hg ls hls => ihg g hg hls) hfirst, ih hrest⟩
  | filter e ps ih =>
    intro d ls h
    obtain ⟨first, rest, hfirst, hrest, rfl⟩ := groupLines_cons_ok h
    obtain ⟨t, ht, hfirst⟩ := bind_eq_ok.1 hfirst
    cases pure_eq_ok.1 hfirst
    have hfilter : OneLine ("FILTER(" ++ t ++ ")") :=
      oneLine_append.2 ⟨oneLine_append.2 ⟨by decide, oneLine_expression e ht⟩, by decide⟩
    exact List.forall_mem_cons.2 ⟨within_line hfilter d, ih hrest⟩
  | minus g ps ihg ih =>
    intro d ls h
    obtain ⟨first, rest, hfirst, hrest, rfl⟩ := groupLines_cons_ok h
    obtain ⟨inside, hinside, hfirst⟩ := bind_eq_ok.1 hfirst
    cases pure_eq_ok.1 hfirst
    exact List.forall_mem_append.2 ⟨within_block (by decide) (ihg hinside), ih hrest⟩

theorem Within.ne_closing {k d : Nat} {l : String} (h : Within d l) (hk : k < d) :
    l ≠ line k "\x7d" := by
  obtain ⟨_, j, text, hj, rfl⟩ := h
  exact (closing_ne_line (Nat.lt_of_lt_of_le hk hj) text).symm

/-! ## Groups that the text tells apart -/

/-- Patterns that differ at most in what the text does not show: the schemas that IRIs are tagged
with, and filters that are written alike. -/
inductive SamePattern : Pattern → Pattern → Prop where
  | statement {s s' : Statement} : s.untagged = s'.untagged →
    SamePattern (.statement s) (.statement s')
  | optional {g g' : Group} : List.Forall₂ SamePattern g g' →
    SamePattern (.optional g) (.optional g')
  | union {gs gs' : List Group} : List.Forall₂ (List.Forall₂ SamePattern) gs gs' →
    SamePattern (.union gs) (.union gs')
  | filter {e e' : Expression} : expression e = expression e' →
    SamePattern (.filter e) (.filter e')
  | minus {g g' : Group} : List.Forall₂ SamePattern g g' → SamePattern (.minus g) (.minus g')

/-- Groups of the same patterns, one by one. -/
def SameGroup (g g' : Group) : Prop :=
  List.Forall₂ SamePattern g g'

end Sparql

def Visit.isEmptyUnion : Visit → Bool
  | .union [] => true
  | _ => false

namespace Group

/-- No UNION in the group, at any depth, is without alternatives. -/
def Solid (g : Group) : Prop :=
  ∀ part ∈ g.visits, part.isEmptyUnion = false

instance (g : Group) : Decidable g.Solid :=
  inferInstanceAs (Decidable (∀ part ∈ g.visits, _))

theorem solid_of_parts {g : Group} (h : ∀ part ∈ Pattern.partVisits g, part.isEmptyUnion = false) :
    g.Solid :=
  List.forall_mem_cons.2 ⟨rfl, h⟩

variable {p : Pattern} {ps : Group}

theorem Solid.first (h : Solid (p :: ps)) : ∀ part ∈ p.visits, part.isEmptyUnion = false :=
  fun part hpart => h part (List.mem_cons_of_mem _ (List.mem_append_left _ hpart))

theorem Solid.rest (h : Solid (p :: ps)) : Solid ps :=
  solid_of_parts fun part hpart => h part (List.mem_cons_of_mem _ (List.mem_append_right _ hpart))

theorem Solid.ne_union (h : Solid (p :: ps)) : p ≠ .union [] := by
  rintro rfl
  exact Bool.false_ne_true (h.first (.union []) (by simp [Pattern.visits])).symm

theorem partVisits_subset {gs : List Group} {g : Group} (hg : g ∈ gs) :
    Pattern.partVisits g ⊆ Pattern.groupVisits gs := by
  induction gs with
  | nil => cases hg
  | cons g' gs ih =>
    intro part hpart
    rcases List.mem_cons.1 hg with rfl | hg
    · exact List.mem_cons_of_mem _ (List.mem_append_left _ hpart)
    · exact List.mem_cons_of_mem _ (List.mem_append_right _ (ih hg hpart))

theorem Solid.inside {g : Group} (h : Solid (p :: ps)) (hp : p.Opens g) : Solid g := by
  apply solid_of_parts
  intro part hpart
  apply h.first
  cases hp with
  | optional g => simp [Pattern.visits, hpart]
  | union hg => simp [Pattern.visits, partVisits_subset hg hpart]
  | minus g => simp [Pattern.visits, hpart]

end Group

namespace Sparql

/-- The character that stands for all with which terms start, or the character itself. -/
def markOf (c : Char) : Char :=
  if c ∈ ['?', '"', '<', 'r', 'o', 'x', 'k'] then '?' else c

/-- How the text of a pattern starts. -/
def mark : Pattern → Char
  | .statement _ => '?'
  | .optional _ => 'O'
  | .union _ => '\x7b'
  | .filter _ => 'F'
  | .minus _ => 'M'

theorem mark_ne_union (p : Pattern) : mark p ≠ 'U' := by
  cases p <;> simp [mark]

/-- Patterns that start alike are of one kind. -/
theorem kind_of_mark {p p' : Pattern} (h : mark p' = mark p) :
    match p with
    | .statement _ => ∃ s, p' = .statement s
    | .optional _ => ∃ g, p' = .optional g
    | .union _ => ∃ gs, p' = .union gs
    | .filter _ => ∃ e, p' = .filter e
    | .minus _ => ∃ g, p' = .minus g := by
  cases p <;> cases p' <;> simp [mark] at h ⊢

/-- A pattern shows on its first line what it is. -/
theorem firstLine_of_ok {d : Nat} {p : Pattern} {ls : List String} (h : patternLines d p = .ok ls)
    (hp : p ≠ .union []) :
    ∃ text rest, ls = line d text :: rest ∧ text.toList.head?.map markOf = some (mark p) := by
  cases p with
  | statement s =>
    obtain ⟨l, hl, h⟩ := bind_eq_ok.1 h
    cases pure_eq_ok.1 h
    obtain ⟨a, b, c, ha, _, _, rfl⟩ := statementLine_ok hl
    obtain ⟨first, rest, hfirst, hmem⟩ := (written_of_ok ha).head
    exact ⟨_, [], rfl, by simp [hfirst, markOf, hmem, mark]⟩
  | optional g =>
    obtain ⟨inside, _, h⟩ := bind_eq_ok.1 h
    cases pure_eq_ok.1 h
    exact ⟨_, _, rfl, by simp [markOf, mark]⟩
  | union gs =>
    cases gs with
    | nil => exact absurd rfl hp
    | cons g gs =>
      obtain ⟨inside, more, _, rfl, _⟩ := alternativeLines_cons_ok h
      exact ⟨_, _, rfl, by simp [markOf, mark]⟩
  | filter e =>
    obtain ⟨t, _, h⟩ := bind_eq_ok.1 h
    cases pure_eq_ok.1 h
    exact ⟨_, [], rfl, by simp [markOf, mark]⟩
  | minus g =>
    obtain ⟨inside, _, h⟩ := bind_eq_ok.1 h
    cases pure_eq_ok.1 h
    exact ⟨_, _, rfl, by simp [markOf, mark]⟩

/-- What follows a group: no line at the level of its patterns. -/
def Ends (d : Nat) (rest : List String) : Prop :=
  ∀ text, rest.head? ≠ some (line d text)

theorem ends_nil (d : Nat) : Ends d [] := by
  simp [Ends]

theorem ends_closing (d : Nat) (rest : List String) : Ends (d + 1) (line d "\x7d" :: rest) := by
  intro text h
  exact closing_ne_line (Nat.lt_succ_self d) text (Option.some.inj h)

/-- After a pattern of a group comes no UNION. -/
theorem not_union_of_groupLines {d : Nat} {g : Group} {ls rest : List String} (hg : g.Solid)
    (h : groupLines d g = .ok ls) (hrest : Ends d rest) :
    (ls ++ rest).head? ≠ some (line d "UNION") := by
  cases g with
  | nil =>
    cases h
    exact hrest "UNION"
  | cons p ps =>
    obtain ⟨first, more, hfirst, _, rfl⟩ := groupLines_cons_ok h
    obtain ⟨text, _, rfl, hmark⟩ := firstLine_of_ok hfirst hg.ne_union
    intro heq
    cases line_inj (Option.some.inj heq)
    exact mark_ne_union p (Option.some.inj hmark).symm

theorem statement_inj {d : Nat} {s s' : Statement} {l : String} (h : statementLine d s = .ok l)
    (h' : statementLine d s' = .ok l) : s.untagged = s'.untagged := by
  obtain ⟨a, b, c, ha, hb, hc, rfl⟩ := statementLine_ok h
  obtain ⟨a', b', c', ha', hb', hc', heq⟩ := statementLine_ok h'
  have hblank : ∀ rest, Stops (' ' :: rest) := stops_cons (by decide)
  have htext := congrArg String.toList (line_inj heq)
  have hspace : " ".toList = [' '] := rfl
  have hdot : " .".toList = [' ', '.'] := rfl
  simp only [String.toList_append, List.append_assoc, hspace, hdot, List.singleton_append] at htext
  obtain ⟨hsubject, htext⟩ :=
    (written_of_ok ha).inj (written_of_ok ha') (hblank _) (hblank _) htext
  obtain ⟨hpredicate, htext⟩ :=
    (written_of_ok hb).inj (written_of_ok hb') (hblank _) (hblank _) (List.cons.inj htext).2
  obtain ⟨hobject, _⟩ :=
    (written_of_ok hc).inj (written_of_ok hc') (hblank _) (hblank _) (List.cons.inj htext).2
  simp only [Statement.untagged, Statement.map, hsubject, hpredicate, hobject]

/-- The group is read in one way from lines that start with it, up to where it ends. -/
def Reads (g : Group) : Prop :=
  ∀ ⦃d : Nat⦄ ⦃g' : Group⦄ ⦃ls ls' rest rest' : List String⦄, g.Solid → g'.Solid →
    groupLines d g = .ok ls → groupLines d g' = .ok ls' → Ends d rest → Ends d rest' →
    ls ++ rest = ls' ++ rest' → SameGroup g g' ∧ rest = rest'

theorem Reads.block {g g' : Group} (hg : Reads g) {d : Nat} {head : String}
    {inside inside' rest rest' : List String} (hsolid : g.Solid) (hsolid' : g'.Solid)
    (h : groupLines (d + 1) g = .ok inside) (h' : groupLines (d + 1) g' = .ok inside')
    (heq : block d head inside ++ rest = block d head inside' ++ rest') :
    SameGroup g g' ∧ rest = rest' := by
  simp only [Sparql.block, List.cons_append, List.append_assoc, List.cons.injEq, true_and,
    List.nil_append] at heq
  obtain ⟨hsame, hrest⟩ :=
    hg hsolid hsolid' h h' (ends_closing d rest) (ends_closing d rest') heq
  exact ⟨hsame, (List.cons.inj hrest).2⟩

/-- Alternatives are read in one way up to where no UNION follows. -/
theorem alternatives_read {gs gs' : List Group} (hgs : ∀ g ∈ gs, Reads g) {d : Nat}
    {ls ls' rest rest' : List String} (hne : gs ≠ []) (hne' : gs' ≠ [])
    (hsolid : ∀ g ∈ gs, g.Solid) (hsolid' : ∀ g ∈ gs', g.Solid)
    (h : alternativeLines d gs = .ok ls) (h' : alternativeLines d gs' = .ok ls')
    (hrest : rest.head? ≠ some (line d "UNION")) (hrest' : rest'.head? ≠ some (line d "UNION"))
    (heq : ls ++ rest = ls' ++ rest') : List.Forall₂ SameGroup gs gs' ∧ rest = rest' := by
  induction gs generalizing gs' ls ls' with
  | nil => exact absurd rfl hne
  | cons g gs ih =>
    cases gs' with
    | nil => exact absurd rfl hne'
    | cons g' gs' =>
      obtain ⟨inside, more, hinside, rfl, hmore⟩ := alternativeLines_cons_ok h
      obtain ⟨inside', more', hinside', rfl, hmore'⟩ := alternativeLines_cons_ok h'
      rw [List.append_assoc, List.append_assoc] at heq
      obtain ⟨hsame, heq⟩ := (hgs g List.mem_cons_self).block (hsolid g List.mem_cons_self)
        (hsolid' g' List.mem_cons_self) hinside hinside' heq
      -- The line after a block decides whether there is another alternative.
      rcases hmore with ⟨rfl, rfl⟩ | ⟨hgs0, others, hothers, rfl⟩
      · rcases hmore' with ⟨rfl, rfl⟩ | ⟨_, others', _, rfl⟩
        · exact ⟨.cons hsame .nil, heq⟩
        · rw [List.nil_append] at heq
          exact absurd (congrArg List.head? heq) hrest
      · rcases hmore' with ⟨rfl, rfl⟩ | ⟨hgs0', others', hothers', rfl⟩
        · rw [List.nil_append] at heq
          exact absurd (congrArg List.head? heq.symm) hrest'
        · obtain ⟨hsames, hrest⟩ := ih (fun g hg => hgs g (List.mem_cons_of_mem _ hg)) hgs0 hgs0'
            (fun g hg => hsolid g (List.mem_cons_of_mem _ hg))
            (fun g hg => hsolid' g (List.mem_cons_of_mem _ hg)) hothers hothers'
            (List.cons.inj heq).2
          exact ⟨.cons hsame hsames, hrest⟩

/-- A pattern is read in one way, if the groups inside it are. -/
theorem pattern_reads {p p' : Pattern} {ps ps' : Group} (inside : ∀ g, p.Opens g → Reads g)
    {d : Nat} {ls ls' rest rest' : List String} (hsolid : Group.Solid (p :: ps))
    (hsolid' : Group.Solid (p' :: ps')) (hmark : mark p' = mark p) (h : patternLines d p = .ok ls)
    (h' : patternLines d p' = .ok ls') (hrest : rest.head? ≠ some (line d "UNION"))
    (hrest' : rest'.head? ≠ some (line d "UNION")) (heq : ls ++ rest = ls' ++ rest') :
    SamePattern p p' ∧ rest = rest' := by
  cases p with
  | statement s =>
    obtain ⟨s', rfl⟩ := kind_of_mark hmark
    obtain ⟨l, hl, h⟩ := bind_eq_ok.1 h
    obtain ⟨l', hl', h'⟩ := bind_eq_ok.1 h'
    cases pure_eq_ok.1 h
    cases pure_eq_ok.1 h'
    obtain ⟨rfl, hrest⟩ := List.cons.inj heq
    exact ⟨.statement (statement_inj hl hl'), hrest⟩
  | optional g =>
    obtain ⟨g', rfl⟩ := kind_of_mark hmark
    obtain ⟨lines, hlines, h⟩ := bind_eq_ok.1 h
    obtain ⟨lines', hlines', h'⟩ := bind_eq_ok.1 h'
    cases pure_eq_ok.1 h
    cases pure_eq_ok.1 h'
    obtain ⟨hsame, hrest⟩ := (inside g (.optional g)).block (hsolid.inside (.optional g))
      (hsolid'.inside (.optional g')) hlines hlines' heq
    exact ⟨.optional hsame, hrest⟩
  | union gs =>
    obtain ⟨gs', rfl⟩ := kind_of_mark hmark
    have hne : gs ≠ [] := fun h => hsolid.ne_union (congrArg Pattern.union h)
    have hne' : gs' ≠ [] := fun h => hsolid'.ne_union (congrArg Pattern.union h)
    obtain ⟨hsame, hrest⟩ := alternatives_read (fun g hg => inside g (.union hg)) hne hne'
      (fun g hg => hsolid.inside (.union hg)) (fun g hg => hsolid'.inside (.union hg)) h h' hrest
      hrest' heq
    exact ⟨.union hsame, hrest⟩
  | filter e =>
    obtain ⟨e', rfl⟩ := kind_of_mark hmark
    obtain ⟨t, ht, h⟩ := bind_eq_ok.1 h
    obtain ⟨t', ht', h'⟩ := bind_eq_ok.1 h'
    cases pure_eq_ok.1 h
    cases pure_eq_ok.1 h'
    obtain ⟨hline, hrest⟩ := List.cons.inj heq
    have htext : t = t' := by simpa using line_inj hline
    exact ⟨.filter (by rw [ht, ht', htext]), hrest⟩
  | minus g =>
    obtain ⟨g', rfl⟩ := kind_of_mark hmark
    obtain ⟨lines, hlines, h⟩ := bind_eq_ok.1 h
    obtain ⟨lines', hlines', h'⟩ := bind_eq_ok.1 h'
    cases pure_eq_ok.1 h
    cases pure_eq_ok.1 h'
    obtain ⟨hsame, hrest⟩ := (inside g (.minus g)).block (hsolid.inside (.minus g))
      (hsolid'.inside (.minus g')) hlines hlines' heq
    exact ⟨.minus hsame, hrest⟩

theorem reads_nil : Reads [] := by
  intro d g' ls ls' rest rest' _ hsolid' h h' hrest _ heq
  cases h
  cases g' with
  | nil =>
    cases h'
    exact ⟨.nil, heq⟩
  | cons p ps =>
    obtain ⟨first, more, hfirst, _, rfl⟩ := groupLines_cons_ok h'
    obtain ⟨text, _, rfl, _⟩ := firstLine_of_ok hfirst hsolid'.ne_union
    exact absurd (congrArg List.head? heq) (hrest text)

theorem reads_cons {p : Pattern} {ps : Group} (inside : ∀ g, p.Opens g → Reads g) (hps : Reads ps) :
    Reads (p :: ps) := by
  intro d g' ls ls' rest rest' hsolid hsolid' h h' hrest hrest' heq
  obtain ⟨first, more, hfirst, hmore, rfl⟩ := groupLines_cons_ok h
  obtain ⟨text, tail, hline, hmark⟩ := firstLine_of_ok hfirst hsolid.ne_union
  cases g' with
  | nil =>
    cases h'
    rw [hline] at heq
    exact absurd (congrArg List.head? heq.symm) (hrest' text)
  | cons p' ps' =>
    obtain ⟨first', more', hfirst', hmore', rfl⟩ := groupLines_cons_ok h'
    obtain ⟨text', tail', hline', hmark'⟩ := firstLine_of_ok hfirst' hsolid'.ne_union
    have hkind : mark p' = mark p := by
      rw [hline, hline'] at heq
      rw [line_inj (List.cons.inj heq).1, hmark'] at hmark
      exact Option.some.inj hmark
    rw [List.append_assoc, List.append_assoc] at heq
    obtain ⟨hsame, heq⟩ := pattern_reads inside hsolid hsolid' hkind hfirst hfirst'
      (not_union_of_groupLines hsolid.rest hmore hrest)
      (not_union_of_groupLines hsolid'.rest hmore' hrest') heq
    obtain ⟨hsames, heq⟩ := hps hsolid.rest hsolid'.rest hmore hmore' hrest hrest' heq
    exact ⟨.cons hsame hsames, heq⟩

/-- **A group is read in one way** from lines, up to where it ends. -/
theorem reads (g : Group) : Reads g := by
  induction g using Group.by_patterns with
  | nil => exact reads_nil
  | statement s ps ih =>
    refine reads_cons ?_ ih
    rintro _ ⟨⟩
  | optional g ps ihg ih =>
    refine reads_cons ?_ ih
    rintro _ ⟨⟩
    exact ihg
  | union gs ps ihg ih =>
    refine reads_cons ?_ ih
    intro g hg
    cases hg with
    | union hg => exact ihg g hg
  | filter e ps ih =>
    refine reads_cons ?_ ih
    rintro _ ⟨⟩
  | minus g ps ihg ih =>
    refine reads_cons ?_ ih
    rintro _ ⟨⟩
    exact ihg

theorem sameGroup_of_text {g g' : Group} {text : String} (hsolid : g.Solid) (hsolid' : g'.Solid)
    (h : groupText g = .ok text) (h' : groupText g' = .ok text) : SameGroup g g' := by
  obtain ⟨ls, hls, h⟩ := bind_eq_ok.1 h
  obtain ⟨ls', hls', h'⟩ := bind_eq_ok.1 h'
  have htext : joinLines ls = joinLines ls' := (pure_eq_ok.1 h).trans (pure_eq_ok.1 h').symm
  have hlines := textLines_joinLines (fun l hl => (within_groupLines hls l hl).1) ""
  rw [htext, textLines_joinLines (fun l hl => (within_groupLines hls' l hl).1) ""] at hlines
  exact (reads g hsolid hsolid' hls hls' (ends_nil 0) (ends_nil 0)
    (congrArg (· ++ []) (List.append_cancel_right hlines.symm))).1

/-! ## The WHERE block of a query -/

/-- The lines up to the first one that is only a closing brace. -/
def upToClosing : List String → List String
  | [] => []
  | l :: ls => if l = "\x7d" then [l] else l :: upToClosing ls

/-- The WHERE block in the text of a query. -/
def whereBlock (text : String) : String :=
  joinLines (upToClosing ((textLines text).dropWhile (· ≠ "WHERE \x7b")))

theorem upToClosing_of_inside {inside : List String} (h : ∀ l ∈ inside, l ≠ "\x7d")
    (rest : List String) : upToClosing (inside ++ "\x7d" :: rest) = inside ++ ["\x7d"] := by
  induction inside with
  | nil => simp [upToClosing]
  | cons l inside ih =>
    have hl := h l List.mem_cons_self
    rw [List.cons_append, upToClosing, if_neg hl, ih fun l' hl' =>
      h l' (List.mem_cons_of_mem _ hl')]
    rfl

/-- The block is found after lines that do not open it, whatever text follows. -/
theorem whereBlock_joinLines {before inside : List String}
    (hbefore : ∀ l ∈ before, OneLine l ∧ l ≠ "WHERE \x7b") (hinside : ∀ l ∈ inside, Within 1 l)
    (rest : String) :
    whereBlock (joinLines (before ++ block 0 "WHERE " inside) ++ rest) =
      joinLines (block 0 "WHERE " inside) := by
  have hblock : ∀ l ∈ block 0 "WHERE " inside, Within 0 l := within_block (by decide) hinside
  have hlines : ∀ l ∈ before ++ block 0 "WHERE " inside, OneLine l :=
    List.forall_mem_append.2 ⟨fun l hl => (hbefore l hl).1, fun l hl => (hblock l hl).1⟩
  have hskip : ∀ l ∈ before, decide (l ≠ "WHERE \x7b") = true :=
    fun l hl => decide_eq_true (hbefore l hl).2
  have hopening : block 0 "WHERE " inside ++ textLines rest =
      "WHERE \x7b" :: inside ++ "\x7d" :: textLines rest := by
    simp [block]
  have hclosing : ∀ l ∈ "WHERE \x7b" :: inside, l ≠ "\x7d" := by
    refine List.forall_mem_cons.2 ⟨by decide, fun l hl => ?_⟩
    simpa using (hinside l hl).ne_closing Nat.zero_lt_one
  rw [whereBlock, textLines_joinLines hlines, List.append_assoc,
    List.dropWhile_append_of_pos hskip, hopening, List.cons_append,
    List.dropWhile_cons_of_neg (by simp), ← List.cons_append, upToClosing_of_inside hclosing]
  simp [block]

theorem Within.ne_opening {l : String} (h : Within 1 l) : l ≠ "WHERE \x7b" := by
  obtain ⟨_, k, text, hk, rfl⟩ := h
  obtain ⟨k, rfl⟩ := Nat.exists_eq_add_of_le' hk
  intro heq
  have hchars := congrArg String.toList heq
  rw [toList_line_succ] at hchars
  simp at hchars

theorem joinLines_append (ls ls' : List String) :
    joinLines (ls ++ ls') = joinLines ls ++ joinLines ls' := by
  apply String.toList_injective
  simp [joinLines]

theorem header_opens_no_block : ∀ l ∈ header, OneLine l ∧ l ≠ "WHERE \x7b" := by
  decide

theorem whereLines_ok {body : Group} {ls : List String} (h : whereLines body = .ok ls) :
    ∃ inside, groupLines 1 body = .ok inside ∧ ls = block 0 "WHERE " inside := by
  obtain ⟨inside, hinside, h⟩ := bind_eq_ok.1 h
  exact ⟨inside, hinside, (pure_eq_ok.1 h).symm⟩

theorem whereBlock_contentText {q : ContentQuery} {text : String} (h : contentText q = .ok text) :
    ∃ inside, groupLines 1 q.body = .ok inside ∧
      whereBlock text = joinLines (block 0 "WHERE " inside) := by
  obtain ⟨template, htemplate, h⟩ := bind_eq_ok.1 h
  obtain ⟨body, hbody, h⟩ := bind_eq_ok.1 h
  obtain ⟨order, _, h⟩ := bind_eq_ok.1 h
  cases pure_eq_ok.1 h
  obtain ⟨inside, hinside, rfl⟩ := whereLines_ok hbody
  have hstatements : ∀ l ∈ template, Within 1 l := by
    intro l hl
    obtain ⟨s, _, hs⟩ := exists_of_mem_right (forall₂_of_mapM_ok htemplate) hl
    exact within_statementLine hs
  have hbefore : ∀ l ∈ header ++ block 0 "CONSTRUCT " template, OneLine l ∧ l ≠ "WHERE \x7b" := by
    refine List.forall_mem_append.2 ⟨header_opens_no_block, fun l hl => ?_⟩
    refine ⟨(within_block (by decide) hstatements l hl).1, ?_⟩
    simp only [block, List.cons_append, List.mem_cons, List.mem_append, List.not_mem_nil,
      or_false] at hl
    rcases hl with rfl | hl | rfl
    · decide
    · exact (hstatements l hl).ne_opening
    · decide
  refine ⟨inside, hinside, ?_⟩
  rw [List.append_assoc _ order, joinLines_append]
  exact whereBlock_joinLines hbefore (within_groupLines hinside) _

theorem whereBlock_countText {q : CountQuery} {text : String} (h : countText q = .ok text) :
    ∃ inside, groupLines 1 q.body = .ok inside ∧
      whereBlock text = joinLines (block 0 "WHERE " inside) := by
  obtain ⟨main, hmain, h⟩ := bind_eq_ok.1 h
  obtain ⟨body, hbody, h⟩ := bind_eq_ok.1 h
  cases pure_eq_ok.1 h
  obtain ⟨inside, hinside, rfl⟩ := whereLines_ok hbody
  have hselect : OneLine ("SELECT (COUNT(DISTINCT " ++ main ++ ") AS ?count)") :=
    oneLine_append.2 ⟨oneLine_append.2 ⟨by decide, (written_variable hmain).oneLine⟩, by decide⟩
  have hother : "SELECT (COUNT(DISTINCT " ++ main ++ ") AS ?count)" ≠ "WHERE \x7b" := by
    intro heq
    have hchars := congrArg String.toList heq
    simp at hchars
  have hbefore : ∀ l ∈ header ++ ["SELECT (COUNT(DISTINCT " ++ main ++ ") AS ?count)"],
      OneLine l ∧ l ≠ "WHERE \x7b" := by
    refine List.forall_mem_append.2 ⟨header_opens_no_block, fun l hl => ?_⟩
    rw [List.mem_singleton.1 hl]
    exact ⟨hselect, hother⟩
  refine ⟨inside, hinside, ?_⟩
  simpa using whereBlock_joinLines hbefore (within_groupLines hinside) ""

end Sparql

/-- The two queries of a page have one WHERE block: that of the body. -/
theorem StoreQuery.whereBlock_emit {q : StoreQuery} {texts : CompiledQuery}
    (hcount : q.content.counted = .ok q.count) (h : q.emit = .ok texts) :
    ∃ inside, Sparql.groupLines 1 q.content.body = .ok inside ∧
      Sparql.whereBlock texts.content = Sparql.joinLines (Sparql.block 0 "WHERE " inside) ∧
      Sparql.whereBlock texts.count = Sparql.whereBlock texts.content := by
  obtain ⟨content, hcontent, h⟩ := bind_eq_ok.1 h
  obtain ⟨count, hcounted, h⟩ := bind_eq_ok.1 h
  cases pure_eq_ok.1 h
  have hbody : q.count.body = q.content.body := by
    rw [(ContentQuery.counted_ok hcount).2]
  obtain ⟨inside, hinside, hblock⟩ := Sparql.whereBlock_contentText hcontent
  obtain ⟨inside', hinside', hblock'⟩ := Sparql.whereBlock_countText hcounted
  rw [hbody, hinside] at hinside'
  cases hinside'
  exact ⟨inside, hinside, hblock, hblock'.trans hblock.symm⟩

/-- **The text of patterns is unambiguous.**

* Two groups with the same text are the same but for schemas of IRIs and filters that are written
  alike, if no UNION in them is empty.
* A term, whatever is in it, does not end before its end: no other term, followed by something that
  cannot continue it, makes the same text.
* A line, whatever is written on it, stays one line, and none inside a block closes the block or one
  around it.
* If the second query of a page is the count of the first, both have the same WHERE block, which is
  the body as it is written. Every query that is compiled gives such a page
  (`Query.toStore_counted`).
* So the two texts of a query that is compiled have the same WHERE block. -/
theorem text_determines_patterns :
    (∀ (g g' : Group) (text : String), g.Solid → g'.Solid → Sparql.groupText g = .ok text →
      Sparql.groupText g' = .ok text → Sparql.SameGroup g g') ∧
    (∀ (e e' : Entity) (text text' rest rest' : String), Sparql.term e = .ok text →
      Sparql.term e' = .ok text' → Sparql.Stops rest.toList → Sparql.Stops rest'.toList →
      text ++ rest = text' ++ rest' → e.untagged = e'.untagged ∧ rest = rest') ∧
    (∀ (g : Group) (d : Nat) (ls : List String), Sparql.groupLines (d + 1) g = .ok ls →
      ∀ l ∈ ls, '\n' ∉ l.toList ∧ ∀ k ≤ d, l ≠ Sparql.line k "\x7d") ∧
    (∀ (q : StoreQuery) (texts : CompiledQuery), q.content.counted = .ok q.count →
      q.emit = .ok texts → ∃ inside, Sparql.groupLines 1 q.content.body = .ok inside ∧
        Sparql.whereBlock texts.content = Sparql.joinLines (Sparql.block 0 "WHERE " inside) ∧
        Sparql.whereBlock texts.count = Sparql.whereBlock texts.content) ∧
    ∀ (q : Query) (config : Config) (o : Ontology) (texts : CompiledQuery),
      q.compile config o = .ok texts →
        Sparql.whereBlock texts.count = Sparql.whereBlock texts.content := by
  refine ⟨fun g g' text => Sparql.sameGroup_of_text, ?_, ?_, fun q texts => q.whereBlock_emit, ?_⟩
  · intro e e' text text' rest rest' h h' hrest hrest' heq
    have hchars := congrArg String.toList heq
    rw [String.toList_append, String.toList_append] at hchars
    obtain ⟨hsame, htail⟩ :=
      (Sparql.written_of_ok h).inj (Sparql.written_of_ok h') hrest hrest' hchars
    exact ⟨hsame, String.toList_injective htail⟩
  · intro g d ls h l hl
    have hwithin := Sparql.within_groupLines h l hl
    exact ⟨hwithin.1, fun k hk => hwithin.ne_closing (Nat.lt_succ_of_le hk)⟩
  · intro q config o texts h
    obtain ⟨types, _, h⟩ := bind_eq_ok.1 h
    obtain ⟨_, _, h⟩ := bind_eq_ok.1 h
    obtain ⟨stored, hstored, h⟩ := bind_eq_ok.1 h
    obtain ⟨_, _, _, hsame⟩ := StoreQuery.whereBlock_emit (Query.toStore_counted hstored) h
    exact hsame

/-- A literal that tries to close its token, its line and its block stays one token; the schema with
which the property is tagged does not show. Both queries with this body are written, with one WHERE
block. -/
theorem text_determines_patterns_quoted :
    let label (schema : Option Schema) : Statement :=
      ⟨.var ⟨"r"⟩, .iri ⟨Rdfs.vocabulary ++ "label", schema⟩, .lit (.string "a\" .\n\x7d\n")⟩
    let group (schema : Option Schema) : Group :=
      [.optional [.union [[.statement (label schema)], []]]]
    let query : StoreQuery :=
      ⟨⟨[label none], group none, ⟨"r"⟩, [], 25, 0⟩, ⟨⟨"r"⟩, group none⟩, []⟩
    let text :=
      "OPTIONAL \x7b\n    \x7b\n        ?r rdfs:label \"a\\\" .\\n\x7d\\n\" .\n" ++
        "    \x7d\n    UNION\n    \x7b\n    \x7d\n\x7d\n"
    Sparql.groupText (group none) = .ok text ∧ Sparql.groupText (group (some .simple)) = .ok text ∧
      Sparql.SameGroup (group none) (group (some .simple)) ∧
      ∃ texts, query.emit = .ok texts ∧
        Sparql.whereBlock texts.count = Sparql.whereBlock texts.content := by
  intro label group query text
  have htext : Sparql.groupText (group none) = .ok text :=
    eq_ok_of_toOption (by decide +kernel)
  have htagged : Sparql.groupText (group (some .simple)) = .ok text :=
    eq_ok_of_toOption (by decide +kernel)
  obtain ⟨texts, htexts⟩ := Option.isSome_iff_exists.1
    (by decide +kernel : query.emit.toOption.isSome = true)
  obtain ⟨_, _, _, hblock⟩ :=
    text_determines_patterns.2.2.2.1 query texts rfl (eq_ok_of_toOption htexts)
  exact ⟨htext, htagged,
    text_determines_patterns.1 _ _ _ (by decide) (by decide) htext htagged,
    texts, eq_ok_of_toOption htexts, hblock⟩

end OntoQuery
