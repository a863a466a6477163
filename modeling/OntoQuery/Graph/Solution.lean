import OntoQuery.Graph.Basic
import OntoQuery.Query.Pattern

/-!
# Solutions

What a group of patterns means. A `Solution` gives nodes to some variables, and `Group.solutions` is
the set of those that a group has. Patterns are taken in order: a statement joins its matches to
what came before, OPTIONAL joins where it can and keeps the rest, UNION joins any of its
alternatives, and MINUS drops what agrees with a solution of its group on a variable they share. The
filters of a group come last and judge the solutions of that group.

A `Reading` says what a statement matches. `Graph.reading` is the plain one, where a statement
matches the triples of a graph. Comparisons and calls come from `Operators`, so a law about all
readings holds whatever they do; only the connectives and BOUND are fixed here.
-/

namespace OntoQuery

/-- The nodes that some variables stand for. -/
abbrev Solution := Variable → Option Node

namespace Solution

/-- The solution that gives no variable a node. -/
def empty : Solution := fun _ => none

/-- No variable stands for two different nodes. -/
def Compatible (m n : Solution) : Prop :=
  ∀ v a b, m v = some a → n v = some b → a = b

/-- Some variable has a node in both. -/
def Shares (m n : Solution) : Prop :=
  ∃ v, (m v).isSome = true ∧ (n v).isSome = true

/-- The nodes of both; where they differ, those of the first. -/
def merge (m n : Solution) : Solution :=
  fun v => (m v).or (n v)

/-- The solution for some of its variables only. -/
def restrict (m : Solution) (keep : Variable → Bool) : Solution :=
  fun v => if keep v then m v else none

theorem compatible_empty (m : Solution) : Compatible empty m := by
  intro v a b h
  cases h

theorem Compatible.symm {m n : Solution} (h : Compatible m n) : Compatible n m :=
  fun v a b hn hm => (h v b a hm hn).symm

@[simp] theorem empty_merge (m : Solution) : merge empty m = m := by
  funext v
  simp [merge, empty]

/-- Compatible solutions can be merged in either order. -/
theorem merge_comm {m n : Solution} (h : Compatible m n) : merge m n = merge n m := by
  funext v
  cases hm : m v with
  | none => simp [merge, hm]
  | some a =>
    cases hn : n v with
    | none => simp [merge, hm, hn]
    | some b => simp [merge, hm, hn, h v a b hm hn]

end Solution

/-- A set of solutions. -/
abbrev Solutions := Solution → Prop

namespace Solutions

/-- The empty solution alone. -/
def unit : Solutions := (· = .empty)

/-- Merged pairs of compatible solutions. -/
def join (as bs : Solutions) : Solutions := fun m =>
  ∃ a b, as a ∧ bs b ∧ a.Compatible b ∧ m = a.merge b

/-- Joined where possible; a solution that nothing can be joined to stays. -/
def leftJoin (as bs : Solutions) : Solutions := fun m =>
  join as bs m ∨ as m ∧ ∀ b, bs b → ¬ m.Compatible b

/-- Without those that agree with one of the others on a variable they share. -/
def minus (as bs : Solutions) : Solutions := fun m =>
  as m ∧ ∀ b, bs b → ¬ (m.Compatible b ∧ m.Shares b)

theorem unit_join (as : Solutions) : join unit as = as := by
  funext m
  apply propext
  constructor
  · rintro ⟨a, b, rfl, hb, _, rfl⟩
    simpa using hb
  · intro h
    exact ⟨.empty, m, rfl, h, Solution.compatible_empty m, by simp⟩

theorem join_comm (as bs : Solutions) : join as bs = join bs as := by
  have swap : ∀ as bs m, join as bs m → join bs as m := by
    rintro as bs m ⟨a, b, ha, hb, hc, rfl⟩
    exact ⟨b, a, hb, ha, hc.symm, Solution.merge_comm hc⟩
  funext m
  exact propext ⟨swap as bs m, swap bs as m⟩

end Solutions

/-- The node that an entity stands for. -/
def Entity.node? (m : Solution) : Entity → Option Node
  | .iri ref => some (.iri ref.iri)
  | .var v => m v
  | .lit l => some (.lit l)

/-- How comparisons and calls come out; `none` is an error. -/
structure Operators where
  compare : Comparison → Node → Node → Option Bool
  call : Function → List Node → Option Node
  /-- Whether a node counts as true. -/
  truth : Node → Option Bool

/-- Both hold; one that fails decides, whatever the other does. -/
def bothHold : Option Bool → Option Bool → Option Bool
  | some false, _ => some false
  | _, some false => some false
  | some true, some true => some true
  | _, _ => none

/-- One holds; one that does so decides, whatever the other does. -/
def oneHolds : Option Bool → Option Bool → Option Bool
  | some true, _ => some true
  | _, some true => some true
  | some false, some false => some false
  | _, _ => none

/-- What an expression comes to: a node, or whether it holds. -/
inductive Outcome where
  | node (n : Node)
  | holds (b : Bool)
  deriving DecidableEq, Repr

namespace Outcome

def toNode : Outcome → Node
  | .node n => n
  | .holds b => .lit (.boolean b)

def truth (ops : Operators) : Outcome → Option Bool
  | .node n => ops.truth n
  | .holds b => some b

end Outcome

namespace Expression

/-- The variable whose having a node is asked for. -/
def boundVariable? : Function → List Expression → Option Variable
  | .bound, [.entity (.var v)] => some v
  | _, _ => none

mutual

/-- What an expression comes to under a solution; `none` is an error. -/
def outcome (ops : Operators) (m : Solution) : Expression → Option Outcome
  | .entity e => (e.node? m).map .node
  | .compare left op right => do
    let a ← outcome ops m left
    let b ← outcome ops m right
    (ops.compare op a.toNode b.toNode).map .holds
  | .and left right =>
    (bothHold ((outcome ops m left).bind (·.truth ops))
      ((outcome ops m right).bind (·.truth ops))).map .holds
  | .or left right =>
    (oneHolds ((outcome ops m left).bind (·.truth ops))
      ((outcome ops m right).bind (·.truth ops))).map .holds
  | .not inner => ((outcome ops m inner).bind (·.truth ops)).map fun b => .holds !b
  | .call function args =>
    match boundVariable? function args with
    | some v => some (.holds (m v).isSome)
    | none => do (ops.call function (← outcomes ops m args)).map .node

def outcomes (ops : Operators) (m : Solution) : List Expression → Option (List Node)
  | [] => some []
  | e :: es => do return (← outcome ops m e).toNode :: (← outcomes ops m es)

end

/-- Whether a solution satisfies the condition; one that ends in an error is not satisfied. -/
def Holds (ops : Operators) (m : Solution) (e : Expression) : Prop :=
  (outcome ops m e).bind (·.truth ops) = some true

/-- A variable is bound exactly if the solution gives it a node. -/
@[simp] theorem holds_bound (ops : Operators) (m : Solution) (v : Variable) :
    (bound v).Holds ops m ↔ (m v).isSome = true := by
  simp [Holds, bound, outcome, boundVariable?, Outcome.truth]

/-- A variable is unbound exactly if the solution gives it no node. -/
@[simp] theorem holds_not_bound (ops : Operators) (m : Solution) (v : Variable) :
    (Expression.not (bound v)).Holds ops m ↔ m v = none := by
  simp [Holds, bound, outcome, boundVariable?, Outcome.truth]

end Expression

/-- What statements match, and how operators come out. -/
structure Reading where
  statement : Statement → Solutions
  operators : Operators

/-- The solutions over exactly the variables of the statement that make it a triple of the graph. -/
def Statement.solutions (g : Graph) (s : Statement) : Solutions := fun m =>
  (∀ v, (m v).isSome = s.mentions v) ∧
    ∃ t ∈ g, s.subject.node? m = some t.subject ∧ s.predicate.node? m = some t.predicate ∧
      s.object.node? m = some t.object

/-- Statements match the triples of the graph. -/
def Graph.reading (g : Graph) (operators : Operators) : Reading where
  statement := Statement.solutions g
  operators := operators

def Pattern.condition? : Pattern → Option Expression
  | .filter e => some e
  | _ => none

/-- The solutions among `as` that satisfy every filter of the group. -/
def Group.filtered (operators : Operators) (g : Group) (as : Solutions) : Solutions := fun m =>
  as m ∧ ∀ e ∈ g.filterMap Pattern.condition?, e.Holds operators m

mutual

/-- The solutions `as` continued by a pattern. Filters wait for the end of their group. -/
def Pattern.matchFrom (r : Reading) : Pattern → Solutions → Solutions
  | .statement s, as => as.join (r.statement s)
  | .optional g, as => as.leftJoin (Group.filtered r.operators g (Group.matchFrom r g .unit))
  | .union gs, as => as.join (Group.alternatives r gs)
  | .filter _, as => as
  | .minus g, as => as.minus (Group.filtered r.operators g (Group.matchFrom r g .unit))

/-- The solutions `as` continued by the patterns of a group in order. -/
def Group.matchFrom (r : Reading) : Group → Solutions → Solutions
  | [], as => as
  | p :: ps, as => Group.matchFrom r ps (p.matchFrom r as)

/-- The solutions of any of the groups. -/
def Group.alternatives (r : Reading) : List Group → Solutions
  | [], _ => False
  | g :: gs, m =>
    Group.filtered r.operators g (Group.matchFrom r g .unit) m ∨ Group.alternatives r gs m

end

/-- The solutions of a group. -/
def Group.solutions (r : Reading) (g : Group) : Solutions :=
  Group.filtered r.operators g (Group.matchFrom r g .unit)

namespace Group

theorem matchFrom_append (r : Reading) (g g' : Group) (as : Solutions) :
    matchFrom r (g ++ g') as = matchFrom r g' (matchFrom r g as) := by
  induction g generalizing as with
  | nil => rfl
  | cons p ps ih => simpa [matchFrom] using ih (p.matchFrom r as)

/-- A statement alone has its matches as solutions. -/
theorem solutions_statement (r : Reading) (s : Statement) :
    solutions r [.statement s] = r.statement s := by
  funext m
  simp [solutions, filtered, matchFrom, Pattern.matchFrom, Pattern.condition?, Solutions.unit_join]

theorem alternatives_iff (r : Reading) (gs : List Group) (m : Solution) :
    alternatives r gs m ↔ ∃ g ∈ gs, solutions r g m := by
  induction gs with
  | nil => simp [alternatives]
  | cons g gs ih => simp [alternatives, solutions, ih]

end Group

end OntoQuery
