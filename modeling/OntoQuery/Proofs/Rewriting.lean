import Mathlib.Data.List.Basic
import OntoQuery.Proofs.Solutions

/-!
# Rewriting statement by statement

Several steps of the compiler put patterns in the place of each statement and leave everything else
as it is, at any depth. `Group.Rewriting` says so of a function on groups, and what follows from it
is said once for all of them: where the groups inside are found again, which statements and filters
there are, and, if the patterns match what the statements did, that the meaning is kept.
-/

namespace OntoQuery

namespace Group

/-- `f` puts the patterns `put s` in the place of each statement `s`, and changes nothing else. -/
structure Rewriting (f : Group → Group) (put : Statement → Group) : Prop where
  nil : f [] = []
  statement : ∀ s ps, f (.statement s :: ps) = put s ++ f ps
  optional : ∀ g ps, f (.optional g :: ps) = .optional (f g) :: f ps
  union : ∀ gs ps, f (.union gs :: ps) = .union (gs.map f) :: f ps
  filter : ∀ e ps, f (.filter e :: ps) = .filter e :: f ps
  minus : ∀ g ps, f (.minus g :: ps) = .minus (f g) :: f ps

section
variable {f : Group → Group} {put : Statement → Group} (hf : Rewriting f put)
include hf

theorem Rewriting.append (g g' : Group) : f (g ++ g') = f g ++ f g' := by
  induction g with
  | nil => rw [hf.nil, List.nil_append, List.nil_append]
  | cons p ps ih =>
    rw [List.cons_append]
    cases p with
    | statement s => rw [hf.statement, hf.statement, ih, List.append_assoc]
    | optional g => rw [hf.optional, hf.optional, ih, List.cons_append]
    | union gs => rw [hf.union, hf.union, ih, List.cons_append]
    | filter e => rw [hf.filter, hf.filter, ih, List.cons_append]
    | minus g => rw [hf.minus, hf.minus, ih, List.cons_append]

theorem Rewriting.mem_of_statement {g : Group} {s : Statement} (h : .statement s ∈ g) {p : Pattern}
    (hp : p ∈ put s) : p ∈ f g := by
  obtain ⟨before, after, rfl⟩ := List.append_of_mem h
  rw [hf.append, hf.statement]
  exact List.mem_append_right _ (List.mem_append_left _ hp)

theorem Rewriting.mem_of_optional {g inner : Group} (h : .optional inner ∈ g) :
    .optional (f inner) ∈ f g := by
  obtain ⟨before, after, rfl⟩ := List.append_of_mem h
  rw [hf.append, hf.optional]
  exact List.mem_append_right _ List.mem_cons_self

theorem Rewriting.mem_of_filter {g : Group} {e : Expression} (h : .filter e ∈ g) :
    .filter e ∈ f g := by
  obtain ⟨before, after, rfl⟩ := List.append_of_mem h
  rw [hf.append, hf.filter]
  exact List.mem_append_right _ List.mem_cons_self

theorem Rewriting.structural : Structural f where
  append := hf.append
  opens p g hp := by
    cases hp with
    | optional g => exact ⟨_, by rw [hf.optional, hf.nil], .optional _⟩
    | minus g => exact ⟨_, by rw [hf.minus, hf.nil], .minus _⟩
    | union hg => exact ⟨_, by rw [hf.union, hf.nil], .union (List.mem_map.2 ⟨g, hg, rfl⟩)⟩

theorem Rewriting.statements_eq (g : Group) :
    (f g).statements = g.statements.flatMap fun s => (put s).statements := by
  induction g using Group.by_patterns with
  | nil => rw [hf.nil]; rfl
  | statement s ps ih =>
    rw [hf.statement, statements_append, ih, statements_statement, List.flatMap_cons]
  | optional g ps ihg ih =>
    rw [hf.optional, statements_optional, statements_optional, ihg, ih, List.flatMap_append]
  | union gs ps ihg ih =>
    have hgs : (gs.map f).flatMap statements =
        gs.flatMap fun g => g.statements.flatMap fun s => (put s).statements := by
      rw [List.flatMap_map]
      exact List.flatMap_congr ihg
    rw [hf.union, statements_union, statements_union, hgs, ih, List.flatMap_append,
      List.flatMap_assoc]
  | filter e ps ih => rw [hf.filter, statements_filter, statements_filter, ih]
  | minus g ps ihg ih =>
    rw [hf.minus, statements_minus, statements_minus, ihg, ih, List.flatMap_append]

theorem Rewriting.conditions_eq (hput : ∀ s, (put s).filterMap Pattern.condition? = [])
    (g : Group) : (f g).filterMap Pattern.condition? = g.filterMap Pattern.condition? := by
  induction g with
  | nil => rw [hf.nil]
  | cons p ps ih =>
    cases p with
    | statement s =>
      rw [hf.statement, List.filterMap_append, hput, ih]
      rfl
    | optional g => rw [hf.optional]; exact ih
    | union gs => rw [hf.union]; exact ih
    | filter e => rw [hf.filter]; exact congrArg (e :: ·) ih
    | minus g => rw [hf.minus]; exact ih

/-- If the patterns put in the place of a statement match what it did, and filter nothing, then a
group has the same solutions as what is made of it. -/
theorem Rewriting.matchFrom_eq {r r' : Reading} (hops : r.operators = r'.operators)
    (hput : ∀ s, (put s).filterMap Pattern.condition? = []) (g : Group)
    (hs : ∀ s ∈ g.statements, ∀ as, matchFrom r (put s) as = as.join (r'.statement s))
    (as : Solutions) : matchFrom r (f g) as = matchFrom r' g as := by
  -- A group inside a pattern counts by its solutions, which its matches and filters decide.
  have whole : ∀ g : Group, (∀ as, matchFrom r (f g) as = matchFrom r' g as) →
      solutions r (f g) = solutions r' g := by
    intro g hg
    unfold solutions filtered
    rw [hf.conditions_eq hput, hops, hg]
  induction g using Group.by_patterns generalizing as with
  | nil => rw [hf.nil]; rfl
  | statement s ps ih =>
    rw [hf.statement, matchFrom_append, hs s (by simp), matchFrom, Pattern.matchFrom_statement]
    exact ih (fun t ht => hs t (by simp [ht])) _
  | optional g ps ihg ih =>
    have hg := whole g (ihg fun t ht => hs t (by simp [ht]))
    rw [hf.optional, matchFrom, matchFrom, Pattern.matchFrom_optional, Pattern.matchFrom_optional,
      hg]
    exact ih (fun t ht => hs t (by simp [ht])) _
  | union gs ps ihg ih =>
    have hgs : ∀ g ∈ gs, solutions r (f g) = solutions r' g := by
      intro g hg
      refine whole g (ihg g hg fun t ht => hs t ?_)
      simp only [statements_union, List.mem_append, List.mem_flatMap]
      exact .inl ⟨g, hg, ht⟩
    have hall : (fun m => ∃ g ∈ gs.map f, solutions r g m) = fun m =>
        ∃ g ∈ gs, solutions r' g m := by
      funext m
      simp only [List.mem_map, eq_iff_iff]
      constructor
      · rintro ⟨_, ⟨g, hg, rfl⟩, hm⟩
        exact ⟨g, hg, hgs g hg ▸ hm⟩
      · rintro ⟨g, hg, hm⟩
        exact ⟨_, ⟨g, hg, rfl⟩, (hgs g hg).symm ▸ hm⟩
    rw [hf.union, matchFrom, matchFrom, Pattern.matchFrom_union, Pattern.matchFrom_union, hall]
    exact ih (fun t ht => hs t (by simp [ht])) _
  | filter e ps ih =>
    rw [hf.filter, matchFrom, matchFrom, Pattern.matchFrom_filter, Pattern.matchFrom_filter]
    exact ih (fun t ht => hs t (by simp [ht])) _
  | minus g ps ihg ih =>
    have hg := whole g (ihg fun t ht => hs t (by simp [ht]))
    rw [hf.minus, matchFrom, matchFrom, Pattern.matchFrom_minus, Pattern.matchFrom_minus, hg]
    exact ih (fun t ht => hs t (by simp [ht])) _

theorem Rewriting.solutions_eq {r r' : Reading} (hops : r.operators = r'.operators)
    (hput : ∀ s, (put s).filterMap Pattern.condition? = []) (g : Group)
    (hs : ∀ s ∈ g.statements, ∀ as, matchFrom r (put s) as = as.join (r'.statement s)) :
    (f g).solutions r = g.solutions r' := by
  unfold solutions filtered
  rw [hf.conditions_eq hput, hops, hf.matchFrom_eq hops hput g hs]

/-- Rewriting what another rewriting has put. -/
theorem Rewriting.comp {f' : Group → Group} {put' : Statement → Group} (hf' : Rewriting f' put') :
    Rewriting (fun g => f' (f g)) fun s => f' (put s) where
  nil := by rw [hf.nil, hf'.nil]
  statement s ps := by rw [hf.statement, hf'.append]
  optional g ps := by rw [hf.optional, hf'.optional]
  union gs ps := by rw [hf.union, hf'.union, List.map_map]; rfl
  filter e ps := by rw [hf.filter, hf'.filter]
  minus g ps := by rw [hf.minus, hf'.minus]

end

end Group

end OntoQuery
