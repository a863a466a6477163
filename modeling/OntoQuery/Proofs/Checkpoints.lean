import OntoQuery.Proofs.Group
import OntoQuery.Proofs.Naming
import OntoQuery.Proofs.Steps

/-!
# What the check of a query looks at

A query passes the check if each of its statements does, wherever it stands, no variable of a filter
has a reserved name, and every regular expression that is given as a literal can be read:
`Query.Acceptable`. The check misses none of these places, at any depth of groups and of
expressions.

`Query.checkpoints` lists the places in the order in which they count: the statements and the
variables in filters of the body, then the regular expressions, then the template, with the patterns
of a group and the operands of an expression in pre-order. The first of them that fails is the fault
which is told (`check_tells_first_fault`). All of this holds whatever reads the regular expressions.
-/

namespace OntoQuery

/-! ## Pre-order -/

namespace Expression

mutual

/-- The expression and all in it, each before its operands and these from left to right. -/
def preorder : Expression → List Expression
  | entity e => [entity e]
  | compare left op right => compare left op right :: (left.preorder ++ right.preorder)
  | and left right => and left right :: (left.preorder ++ right.preorder)
  | or left right => or left right :: (left.preorder ++ right.preorder)
  | not inner => not inner :: inner.preorder
  | call function args => call function args :: preorders args

def preorders : List Expression → List Expression
  | [] => []
  | e :: es => e.preorder ++ preorders es

end

theorem preorders_eq (es : List Expression) : preorders es = es.flatMap preorder := by
  induction es with
  | nil => rfl
  | cons e es ih => rw [preorders, ih, List.flatMap_cons]

theorem preorder_eq (e : Expression) : e.preorder = e :: e.operands.flatMap preorder := by
  cases e with
  | call function args => simp [preorder, operands, preorders_eq]
  | _ => simp [preorder, operands]

theorem mem_preorder {e part : Expression} : part ∈ e.preorder ↔ e.Has part := by
  induction e using by_operands with
  | step e ih =>
    rw [preorder_eq, List.mem_cons, List.mem_flatMap]
    constructor
    · rintro (rfl | ⟨x, hx, hpart⟩)
      · exact .self _
      · exact .operand hx ((ih x hx).1 hpart)
    · intro h
      cases h with
      | self => exact .inl rfl
      | @operand _ x _ hx hpart => exact .inr ⟨x, hx, (ih x hx).2 hpart⟩

/-- The regular expression that the expression calls for, if it is given as a literal. -/
def regex? : Expression → Option String
  | call .regex args =>
    match args[1]? with
    | some (entity (.lit l)) => some l.value
    | _ => none
  | _ => none

theorem regex?_eq_some {e : Expression} {text : String} : e.regex? = some text ↔
    ∃ args l, e = call .regex args ∧ args[1]? = some (entity (.lit l)) ∧ l.value = text := by
  unfold regex?
  split
  · rename_i args
    split
    · rename_i l hl
      simp [hl]
    · rename_i hother
      simp only [reduceCtorEq, false_iff]
      rintro ⟨_, l, heq, hl, _⟩
      cases heq
      exact hother l hl
  · rename_i hother
    simp only [reduceCtorEq, false_iff]
    rintro ⟨args, _, heq, _⟩
    exact hother args heq

/-- The variables of the expression, from left to right. -/
def vars (e : Expression) : List Variable :=
  (e.preorder.filterMap entity?).filterMap Entity.var?

/-- The regular expressions that are given as literals, in pre-order of their calls. -/
def regexes (e : Expression) : List String :=
  e.preorder.filterMap regex?

theorem mem_vars {e : Expression} {v : Variable} : v ∈ e.vars ↔ e.Has (entity (.var v)) := by
  simp [vars, List.mem_filterMap, Entity.var?_eq_some, entity?_eq_some, mem_preorder]

theorem mem_regexes {e : Expression} {text : String} : text ∈ e.regexes ↔
    ∃ args l, e.Has (call .regex args) ∧ args[1]? = some (entity (.lit l)) ∧ l.value = text := by
  simp only [regexes, List.mem_filterMap, mem_preorder, regex?_eq_some]
  constructor
  · rintro ⟨_, hpart, args, l, rfl, hl, htext⟩
    exact ⟨args, l, hpart, hl, htext⟩
  · rintro ⟨args, l, hpart, hl, htext⟩
    exact ⟨_, hpart, args, l, rfl, hl, htext⟩

end Expression

mutual

/-- The pattern and all in it, each before the patterns of its groups and these from left to
right. -/
def Pattern.preorder : Pattern → List Pattern
  | .statement s => [.statement s]
  | .optional g => .optional g :: Pattern.preorders g
  | .union gs => .union gs :: Pattern.alternativePreorders gs
  | .filter e => [.filter e]
  | .minus g => .minus g :: Pattern.preorders g

def Pattern.preorders : Group → List Pattern
  | [] => []
  | p :: ps => p.preorder ++ Pattern.preorders ps

def Pattern.alternativePreorders : List Group → List Pattern
  | [] => []
  | g :: gs => Pattern.preorders g ++ Pattern.alternativePreorders gs

end

namespace Group

/-- The patterns of the group at any depth, in pre-order. -/
def preorder (g : Group) : List Pattern :=
  Pattern.preorders g

theorem preorder_alternatives (gs : List Group) :
    Pattern.alternativePreorders gs = gs.flatMap preorder := by
  induction gs with
  | nil => rfl
  | cons g gs ih =>
    rw [Pattern.alternativePreorders, ih, List.flatMap_cons]
    rfl

theorem preorder_cons (p : Pattern) (ps : Group) :
    preorder (p :: ps) = p :: (p.groups.flatMap preorder ++ preorder ps) := by
  cases p with
  | union gs =>
    simp [preorder, Pattern.preorders, Pattern.preorder, Pattern.groups, preorder_alternatives]
  | _ => simp [preorder, Pattern.preorders, Pattern.preorder, Pattern.groups]

theorem mem_preorder {g : Group} {p : Pattern} : p ∈ g.preorder ↔ g.Has p := by
  induction g using by_groups with
  | nil =>
    constructor
    · intro h
      cases h
    · intro h
      cases h with
      | here h => cases h
      | inside h => cases h
  | cons q ps ihg ih =>
    rw [preorder_cons, List.mem_cons, List.mem_append, List.mem_flatMap, ih]
    constructor
    · rintro (rfl | ⟨inner, hinner, hp⟩ | hp)
      · exact .here List.mem_cons_self
      · exact .inside List.mem_cons_self hinner ((ihg inner hinner).1 hp)
      · cases hp with
        | here hp => exact .here (List.mem_cons_of_mem _ hp)
        | inside hq hinner hp => exact .inside (List.mem_cons_of_mem _ hq) hinner hp
    · intro h
      cases h with
      | here h =>
        cases h with
        | head => exact .inl rfl
        | tail _ hp => exact .inr (.inr (.here hp))
      | inside hq hinner hp =>
        cases hq with
        | head => exact .inr (.inl ⟨_, hinner, (ihg _ hinner).2 hp⟩)
        | tail _ hq => exact .inr (.inr (.inside hq hinner hp))

end Group

/-! ## Visits in pre-order -/

/-- **A test of all visits in an expression is a test of its parts in pre-order**, if it comes for
each part to the tests of certain points. -/
theorem Expression.forM_visits {α : Type} {test : Visit → Except Fault Unit}
    {points : Expression → List α} {testPoint : α → Except Fault Unit}
    (hown : ∀ e : Expression, (Visit.expression e :: e.entity?.toList.map .entity).forM test =
      (points e).forM testPoint) (e : Expression) :
    e.visits.forM test = (e.preorder.flatMap points).forM testPoint := by
  induction e using by_operands with
  | step e ih =>
    have hoperands : (e.operands.flatMap visits).forM test =
        (e.operands.flatMap fun x => x.preorder.flatMap points).forM testPoint :=
      forM_flatMap_congr ih
    have hfirst := hown e
    rw [visits_eq, preorder_eq, List.flatMap_cons, List.flatMap_assoc, ← List.cons_append]
    simp only [List.forM_eq_forM] at hfirst hoperands ⊢
    rw [List.forM_append, List.forM_append, hfirst, hoperands]

/-- What is visited of a pattern itself, without the groups inside it. -/
def Pattern.ownVisits : Pattern → List Visit
  | .statement s => .statement s :: s.entities.map .entity
  | .optional g => [.optional g]
  | .union gs => [.union gs]
  | .filter e => .filter e :: e.visits
  | .minus g => [.minus g]

theorem Group.groupVisits_eq (gs : List Group) : Pattern.groupVisits gs = gs.flatMap visits := by
  induction gs with
  | nil => rfl
  | cons g gs ih => simp [Pattern.groupVisits, ih, visits]

theorem Pattern.visits_eq (p : Pattern) :
    p.visits = .pattern p :: (p.ownVisits ++ p.groups.flatMap Group.visits) := by
  cases p with
  | union gs => simp [visits, ownVisits, groups, Group.groupVisits_eq]
  | _ => simp [visits, ownVisits, groups, Group.visits]

/-- **A test of all visits is a test of the patterns in pre-order**, if it lets groups and patterns
pass as such and comes for each pattern to the tests of certain points. -/
theorem Group.forM_visits {α : Type} {test : Visit → Except Fault Unit} {points : Pattern → List α}
    {testPoint : α → Except Fault Unit} (hgroup : ∀ g, test (.group g) = .ok ())
    (hpattern : ∀ p, test (.pattern p) = .ok ())
    (hown : ∀ p, p.ownVisits.forM test = (points p).forM testPoint) (g : Group) :
    g.visits.forM test = (g.preorder.flatMap points).forM testPoint := by
  have hvisits : ∀ g : Group, g.visits.forM test = (Pattern.partVisits g).forM test := by
    intro g
    rw [visits, List.forM_eq_forM, List.forM_cons, hgroup]
    rfl
  induction g using by_groups with
  | nil =>
    rw [hvisits]
    rfl
  | cons p ps ihg ih =>
    have hinside : (p.groups.flatMap visits).forM test =
        (p.groups.flatMap fun g => g.preorder.flatMap points).forM testPoint :=
      forM_flatMap_congr ihg
    rw [hvisits] at ih
    rw [hvisits, Pattern.partVisits, Pattern.visits_eq, preorder_cons, List.flatMap_cons,
      List.flatMap_append, List.flatMap_assoc]
    simp only [List.forM_eq_forM] at hown hinside ih ⊢
    simp only [List.cons_append, List.append_assoc, List.forM_append, List.forM_cons,
      hpattern, hown, hinside, ih]
    rfl

/-! ## Places that are tested -/

/-- A place of a query that the check looks at. -/
inductive Checkpoint where
  /-- A statement of a clause. -/
  | statement (clause : Clause) (s : Statement)
  /-- A variable in a filter. -/
  | name (v : Variable)
  /-- A regular expression that is given as a literal. -/
  | regex (text : String)

namespace Checkpoint

def test {α : Type} (read : String → Except Regex.Refusal α) (schema : Schema) (types : Types) :
    Checkpoint → Except Fault Unit
  | statement clause s => s.check schema types clause
  | name v => v.check
  | regex text => Regex.check read text

/-- The statement that the pattern is, or the variables of the filter that it is. -/
def ofPattern : Pattern → List Checkpoint
  | .statement s => [statement .body s]
  | .filter e => e.vars.map name
  | _ => []

/-- The regular expressions of the filter that the pattern is. -/
def ofRegexes : Pattern → List Checkpoint
  | .filter e => e.regexes.map regex
  | _ => []

end Checkpoint

namespace Query

/-- The places that are tested, in order. -/
def checkpoints (q : Query) : List Checkpoint :=
  q.body.preorder.flatMap Checkpoint.ofPattern ++ q.body.preorder.flatMap Checkpoint.ofRegexes
    ++ q.template.map (Checkpoint.statement .template)

/-- Nothing in the query is at fault. -/
structure Acceptable {α : Type} (read : String → Except Regex.Refusal α) (q : Query)
    (types : Types) :
    Prop where
  body : ∀ s, q.body.Has (.statement s) → s.check q.schema types .body = .ok ()
  /-- No variable of a filter has a separator in its name. -/
  names : ∀ e v, q.body.Has (.filter e) → e.Has (.entity (.var v)) →
    ¬ Variable.separator.toList <:+: v.name.toList
  /-- What is given to `regex` as a literal can be read. -/
  regexes : ∀ e args l, q.body.Has (.filter e) → e.Has (.call .regex args) →
    args[1]? = some (.entity (.lit l)) → ∃ r, read l.value = .ok r
  template : ∀ s ∈ q.template, s.check q.schema types .template = .ok ()

end Query

theorem Variable.check_eq_ok {v : Variable} :
    v.check = .ok () ↔ ¬ separator.toList <:+: v.name.toList := by
  rw [← isReserved_iff, check]
  split
  · simp_all
  · simp_all

theorem Regex.check_eq_ok {α : Type} {read : String → Except Refusal α} {pattern : String} :
    Regex.check read pattern = .ok () ↔ ∃ r, read pattern = .ok r := by
  unfold Regex.check
  cases read pattern <;> simp

section
variable {α : Type} (read : String → Except Regex.Refusal α) (schema : Schema) (types : Types)

/-- A statement that passes has no reserved name in it, so its entities need no test of their
own. -/
theorem Statement.forM_visits (s : Statement) :
    (Visit.statement s :: s.entities.map .entity).forM (Visit.check schema types) =
      s.check schema types .body := by
  have hnames : s.check schema types .body = .ok () →
      s.entities.forM Entity.checkName = .ok () := by
    intro h
    obtain ⟨_, hnames, _⟩ := bind_eq_ok.1 h
    exact hnames
  rw [List.forM_eq_forM] at hnames ⊢
  rw [List.forM_cons, List.forM_map]
  change (s.check schema types .body >>= fun _ => forM s.entities Entity.checkName) = _
  cases h : s.check schema types .body with
  | error fault => rfl
  | ok _ => exact hnames h

/-- In an expression the names of its variables are tested. -/
theorem Expression.forM_check (e : Expression) :
    e.visits.forM (Visit.check schema types) = e.vars.forM Variable.check := by
  rw [vars, List.filterMap_filterMap, List.filterMap_eq_flatMap_toList]
  apply forM_visits
  intro part
  cases part with
  | entity term =>
    cases term with
    | var v => rfl
    | iri ref => rfl
    | lit l => rfl
  | _ => rfl

theorem Visit.checkRegex_expression (e : Expression) :
    checkRegex read (.expression e) = e.regex?.toList.forM (Regex.check read) := by
  cases htext : e.regex? with
  | some text =>
    obtain ⟨args, l, rfl, hl, rfl⟩ := Expression.regex?_eq_some.1 htext
    cases args with
    | nil => cases hl
    | cons first rest =>
      cases rest with
      | nil => cases hl
      | cons second rest =>
        cases hl
        change Regex.check read l.value = (Regex.check read l.value >>= fun _ => .ok ())
        cases Regex.check read l.value <;> rfl
  | none =>
    unfold checkRegex
    split
    · rename_i heq
      cases heq
      cases htext
    · rfl

/-- In an expression the regular expressions are tested that are given as literals. -/
theorem Expression.forM_checkRegex (e : Expression) :
    e.visits.forM (Visit.checkRegex read) = e.regexes.forM (Regex.check read) := by
  rw [regexes, List.filterMap_eq_flatMap_toList]
  apply forM_visits
  intro part
  rw [← Visit.checkRegex_expression, List.forM_eq_forM, List.forM_cons, List.forM_map]
  have hentity :
      (forM part.entity?.toList fun term => Visit.checkRegex read (.entity term)) = .ok () := by
    cases part.entity? <;> rfl
  rw [hentity]
  cases Visit.checkRegex read (.expression part) <;> rfl

theorem Group.forM_check (g : Group) : g.visits.forM (Visit.check schema types) =
    (g.preorder.flatMap Checkpoint.ofPattern).forM (Checkpoint.test read schema types) := by
  apply g.forM_visits (fun _ => rfl) (fun _ => rfl)
  intro p
  cases p with
  | statement s =>
    have htest : [Checkpoint.statement .body s].forM (Checkpoint.test read schema types) =
        s.check schema types .body := by
      change (s.check schema types .body >>= fun _ => .ok ()) = _
      cases s.check schema types .body <;> rfl
    exact (s.forM_visits schema types).trans htest.symm
  | filter e =>
    have htest : (e.vars.map Checkpoint.name).forM (Checkpoint.test read schema types) =
        e.vars.forM Variable.check := by
      simp only [List.forM_eq_forM, List.forM_map]
      rfl
    exact (e.forM_check schema types).trans htest.symm
  | optional g => rfl
  | union gs => rfl
  | minus g => rfl

theorem Group.forM_checkRegex (g : Group) : g.visits.forM (Visit.checkRegex read) =
    (g.preorder.flatMap Checkpoint.ofRegexes).forM (Checkpoint.test read schema types) := by
  apply g.forM_visits (fun _ => rfl) (fun _ => rfl)
  intro p
  cases p with
  | statement s => rfl
  | filter e =>
    have htest : (e.regexes.map Checkpoint.regex).forM (Checkpoint.test read schema types) =
        e.regexes.forM (Regex.check read) := by
      simp only [List.forM_eq_forM, List.forM_map]
      rfl
    exact (e.forM_checkRegex read).trans htest.symm
  | optional g => rfl
  | union gs => rfl
  | minus g => rfl

end

/-- The check is the test of the places of a query, one after the other. -/
theorem Query.checkWith_eq {α : Type} (read : String → Except Regex.Refusal α) (q : Query)
    (types : Types) :
    q.checkWith read types = q.checkpoints.forM (Checkpoint.test read q.schema types) := by
  have hbody := q.body.forM_check read q.schema types
  have hregexes := q.body.forM_checkRegex read q.schema types
  unfold checkWith checkpoints
  dsimp only
  rw [hbody, hregexes]
  simp only [List.forM_eq_forM, List.forM_append, List.forM_map]
  cases forM (q.body.preorder.flatMap Checkpoint.ofPattern)
    (Checkpoint.test read q.schema types) <;> rfl

theorem Query.forall_checkpoints {α : Type} (read : String → Except Regex.Refusal α) (q : Query)
    (types : Types) :
    (∀ point ∈ q.checkpoints, point.test read q.schema types = .ok ()) ↔
      q.Acceptable read types := by
  constructor
  · intro h
    have inPattern : ∀ p point, q.body.Has p → point ∈ Checkpoint.ofPattern p →
        point.test read q.schema types = .ok () := by
      intro p point hp hpoint
      apply h
      have hmem := List.mem_flatMap.2 ⟨p, Group.mem_preorder.2 hp, hpoint⟩
      simp [checkpoints, hmem]
    have inRegexes : ∀ p point, q.body.Has p → point ∈ Checkpoint.ofRegexes p →
        point.test read q.schema types = .ok () := by
      intro p point hp hpoint
      apply h
      have hmem := List.mem_flatMap.2 ⟨p, Group.mem_preorder.2 hp, hpoint⟩
      simp [checkpoints, hmem]
    exact {
      body := fun s hs => inPattern _ (.statement .body s) hs (by simp [Checkpoint.ofPattern])
      names := fun e v he hv => by
        have hmem : .name v ∈ Checkpoint.ofPattern (.filter e) :=
          List.mem_map_of_mem (Expression.mem_vars.2 hv)
        exact Variable.check_eq_ok.1 (inPattern _ _ he hmem)
      regexes := fun e args l he hcall hl => by
        have hmem : .regex l.value ∈ Checkpoint.ofRegexes (.filter e) :=
          List.mem_map_of_mem (Expression.mem_regexes.2 ⟨args, l, hcall, hl, rfl⟩)
        exact Regex.check_eq_ok.1 (inRegexes _ _ he hmem)
      template := fun s hs => h (.statement .template s) (by simp [checkpoints, hs]) }
  · intro h point hpoint
    simp only [checkpoints, List.mem_append, List.mem_flatMap, List.mem_map, Group.mem_preorder]
      at hpoint
    rcases hpoint with (⟨p, hp, hpoint⟩ | ⟨p, hp, hpoint⟩) | ⟨s, hs, rfl⟩
    · cases p with
      | statement s =>
        cases List.mem_singleton.1 hpoint
        exact h.body s hp
      | filter e =>
        obtain ⟨v, hv, rfl⟩ := List.mem_map.1 hpoint
        exact Variable.check_eq_ok.2 (h.names e v hp (Expression.mem_vars.1 hv))
      | _ => cases hpoint
    · cases p with
      | filter e =>
        obtain ⟨text, htext, rfl⟩ := List.mem_map.1 hpoint
        obtain ⟨args, l, hcall, hl, rfl⟩ := Expression.mem_regexes.1 htext
        exact Regex.check_eq_ok.2 (h.regexes e args l hp hcall hl)
      | _ => cases hpoint
    · exact h.template s hs

/-- **The check looks at every place of a query and tells the first fault**, whatever reads the
regular expressions (`Query.check` is the case of `Regex.parse`). It passes just if nothing in the
query is at fault: no statement of the body or of the template, no name of a variable in a filter,
and no regular expression, at any depth of groups and expressions. If it fails, then with the fault
of the first place that fails. -/
theorem check_tells_first_fault {α : Type} (read : String → Except Regex.Refusal α) (q : Query)
    (types : Types) :
    (q.checkWith read types = .ok () ↔ q.Acceptable read types) ∧
    ∀ fault, q.checkWith read types = .error fault ↔
      ∃ before point after, q.checkpoints = before ++ point :: after ∧
        (∀ earlier ∈ before, earlier.test read q.schema types = .ok ()) ∧
        point.test read q.schema types = .error fault := by
  rw [q.checkWith_eq]
  exact ⟨forM_eq_ok.trans (q.forall_checkpoints read types), fun _ => forM_eq_error⟩

-- The regular expression stands first, but names count before it, also those of a group inside.
example :
    let matches_ : Expression := .call .regex [.entity (.var ⟨"t"⟩), .entity (.lit (.string "("))]
    let q : Query :=
      { schema := .simple, template := []
        body := [.filter (.not matches_),
          .minus [.triple (.var ⟨"r__t"⟩) (.ofIri Rdf.type) (.var ⟨"c"⟩)]] }
    q.check .empty = .error (.reservedName ⟨"r__t"⟩) := by
  rfl

end OntoQuery
