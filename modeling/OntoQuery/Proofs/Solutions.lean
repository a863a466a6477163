import OntoQuery.Graph.Solution
import OntoQuery.Proofs.Group

/-!
# Solutions grow

Going through a group only ever adds nodes to a solution: what a variable stands for after some
patterns, it stands for at the end (`Group.matchFrom_extends`). MINUS and the filters take solutions
away and leave the others as they are.
-/

namespace OntoQuery

namespace Solution

/-- `m` gives every variable of `n` the node that `n` gives it. -/
def Extends (m n : Solution) : Prop :=
  ∀ v a, n v = some a → m v = some a

theorem Extends.refl (m : Solution) : m.Extends m := fun _ _ h => h

theorem Extends.trans {l m n : Solution} (h : l.Extends m) (h' : m.Extends n) : l.Extends n :=
  fun v a hn => h v a (h' v a hn)

theorem merge_extends_left (m n : Solution) : (m.merge n).Extends m := by
  intro v a h
  simp [merge, h]

theorem merge_extends_right {m n : Solution} (h : m.Compatible n) : (m.merge n).Extends n := by
  rw [merge_comm h]
  exact merge_extends_left n m

end Solution

theorem Entity.node?_extends {m n : Solution} (h : m.Extends n) {e : Entity} {a : Node}
    (he : e.node? n = some a) : e.node? m = some a := by
  cases e with
  | iri ref => exact he
  | var v => exact h v a he
  | lit l => exact he

theorem Solutions.join_extends {as bs : Solutions} {m : Solution} (h : as.join bs m) :
    (∃ a, as a ∧ m.Extends a) ∧ ∃ b, bs b ∧ m.Extends b := by
  obtain ⟨a, b, ha, hb, hc, rfl⟩ := h
  exact ⟨⟨a, ha, a.merge_extends_left b⟩, b, hb, Solution.merge_extends_right hc⟩

section
variable (r : Reading)

theorem Pattern.matchFrom_statement (s : Statement) (as : Solutions) :
    (Pattern.statement s).matchFrom r as = as.join (r.statement s) := rfl

theorem Pattern.matchFrom_optional (g : Group) (as : Solutions) :
    (Pattern.optional g).matchFrom r as = as.leftJoin (g.solutions r) := rfl

theorem Pattern.matchFrom_minus (g : Group) (as : Solutions) :
    (Pattern.minus g).matchFrom r as = as.minus (g.solutions r) := rfl

theorem Pattern.matchFrom_union (gs : List Group) (as : Solutions) :
    (Pattern.union gs).matchFrom r as = as.join fun m => ∃ g ∈ gs, g.solutions r m := by
  have halt : Group.alternatives r gs = fun m => ∃ g ∈ gs, g.solutions r m := by
    funext m
    exact propext (Group.alternatives_iff r gs m)
  rw [← halt]
  rfl

theorem Pattern.matchFrom_filter (e : Expression) (as : Solutions) :
    (Pattern.filter e).matchFrom r as = as := rfl

end

/-- What a pattern leaves extends what came to it. -/
theorem Pattern.matchFrom_extends {r : Reading} {p : Pattern} {as : Solutions} {m : Solution}
    (h : p.matchFrom r as m) : ∃ a, as a ∧ m.Extends a := by
  cases p with
  | statement s => exact (Solutions.join_extends h).1
  | optional g =>
    rw [Pattern.matchFrom_optional] at h
    rcases h with h | h
    · exact (Solutions.join_extends h).1
    · exact ⟨m, h.1, .refl m⟩
  | union gs => exact (Solutions.join_extends h).1
  | filter e => exact ⟨m, h, .refl m⟩
  | minus g => exact ⟨m, h.1, .refl m⟩

/-- **What a variable stands for, it stands for to the end of the group.** -/
theorem Group.matchFrom_extends {r : Reading} {g : Group} {as : Solutions} {m : Solution}
    (h : g.matchFrom r as m) : ∃ a, as a ∧ m.Extends a := by
  induction g generalizing as with
  | nil => exact ⟨m, h, .refl m⟩
  | cons p ps ih =>
    obtain ⟨b, hb, hmb⟩ := ih h
    obtain ⟨a, ha, hba⟩ := Pattern.matchFrom_extends hb
    exact ⟨a, ha, hmb.trans hba⟩

/-- A solution of a group has come through each of its patterns. -/
theorem Group.matchFrom_mem {r : Reading} {g : Group} {p : Pattern} (hp : p ∈ g) {as : Solutions}
    {m : Solution} (h : g.matchFrom r as m) : ∃ cs b, p.matchFrom r cs b ∧ m.Extends b := by
  obtain ⟨before, after, rfl⟩ := List.append_of_mem hp
  rw [Group.matchFrom_append, Group.matchFrom] at h
  obtain ⟨b, hb, hmb⟩ := Group.matchFrom_extends h
  exact ⟨_, b, hb, hmb⟩

/-- A statement that is matched on the way is a triple of the graph in the end. -/
theorem Statement.triple_of_extends {g : Graph} {s : Statement} {m b : Solution}
    (hb : s.solutions g b) (h : m.Extends b) :
    ∃ t ∈ g, s.subject.node? m = some t.subject ∧ s.predicate.node? m = some t.predicate ∧
      s.object.node? m = some t.object := by
  obtain ⟨_, t, ht, hsubject, hpredicate, hobject⟩ := hb
  exact ⟨t, ht, Entity.node?_extends h hsubject, Entity.node?_extends h hpredicate,
    Entity.node?_extends h hobject⟩

end OntoQuery
