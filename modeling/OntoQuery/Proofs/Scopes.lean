import OntoQuery.Proofs.Steps
import OntoQuery.Typing.Inference

/-!
# Inference scope by scope

A scope holds unions, and the branches of a union are scopes again. `Scope.by_unions` is the
induction for them. Inference of a scope is made of a few combinators, and `Typist.inferScope_mk`
says how, with the inference of each branch as a plain function: what is known of the combinators
and of the branches then carries over to the scope.
-/

namespace OntoQuery

mutual

theorem Scope.by_unions_aux {P : Scope → Prop}
    (mk : ∀ (statements : List Statement) (filters : List Expression) (unions : List (List Scope)),
      (∀ branches ∈ unions, ∀ branch ∈ branches, P branch) → P (.mk statements filters unions)) :
    ∀ scope : Scope, P scope
  | .mk statements filters unions =>
    mk statements filters unions (Scope.all_unions_aux mk unions)

theorem Scope.all_unions_aux {P : Scope → Prop}
    (mk : ∀ (statements : List Statement) (filters : List Expression) (unions : List (List Scope)),
      (∀ branches ∈ unions, ∀ branch ∈ branches, P branch) → P (.mk statements filters unions)) :
    ∀ unions : List (List Scope), ∀ branches ∈ unions, ∀ branch ∈ branches, P branch
  | [], _, h => by cases h
  | branches :: unions, _, h => by
    cases h with
    | head => exact Scope.all_branches_aux mk branches
    | tail _ h => exact Scope.all_unions_aux mk unions _ h

theorem Scope.all_branches_aux {P : Scope → Prop}
    (mk : ∀ (statements : List Statement) (filters : List Expression) (unions : List (List Scope)),
      (∀ branches ∈ unions, ∀ branch ∈ branches, P branch) → P (.mk statements filters unions)) :
    ∀ branches : List Scope, ∀ branch ∈ branches, P branch
  | [], _, h => by cases h
  | branch :: branches, _, h => by
    cases h with
    | head => exact Scope.by_unions_aux mk branch
    | tail _ h => exact Scope.all_branches_aux mk branches _ h

end

/-- Induction on scopes: what holds of a scope whenever it holds of the branches of its unions holds
of every scope. -/
@[elab_as_elim] theorem Scope.by_unions {P : Scope → Prop} (scope : Scope)
    (mk : ∀ (statements : List Statement) (filters : List Expression) (unions : List (List Scope)),
      (∀ branches ∈ unions, ∀ branch ∈ branches, P branch) → P (.mk statements filters unions)) :
    P scope :=
  Scope.by_unions_aux mk scope

theorem Scope.ofGroups_eq (gs : List Group) : ofGroups gs = gs.map ofGroup := by
  induction gs with
  | nil => rfl
  | cons g gs ih => rw [ofGroups, ih, List.map_cons]

namespace TypeMap
variable {schema : Schema} {seed merged made : TypeMap}

theorem mergeBranch_nil : mergeBranch schema seed merged ⟨[]⟩ = .ok merged := rfl

/-- An entry of a branch that the seed or an earlier branch has already is passed over, and one of
an entity that is new is added. -/
theorem mergeBranch_cons_ok {e : Typeable} {type : Iri} {entries : List (Typeable × Iri)} :
    mergeBranch schema seed merged ⟨(e, type) :: entries⟩ = .ok made ↔
      ∃ next, mergeBranch schema seed next ⟨entries⟩ = .ok made ∧
        (next = merged ∧ (seed.find? e = some type ∨ merged.find? e = some type) ∨
          next = merged.insert e type ∧ seed.find? e ≠ some type ∧ merged.find? e = none) := by
  unfold mergeBranch
  dsimp only
  rw [List.foldlM_cons, bind_eq_ok]
  refine exists_congr fun next => and_comm.trans (and_congr_right fun _ => ?_)
  dsimp only
  by_cases hseed : seed.find? e = some type
  · simp [hseed, @eq_comm _ next]
  · rw [if_neg hseed]
    cases hmerged : merged.find? e with
    | none => simp [hseed, @eq_comm _ next]
    | some previous => by_cases hsame : previous = type <;> simp [hseed, hsame, @eq_comm _ next]

end TypeMap

/-- How a scope is inferred from what is known around it. -/
abbrev Inferrer := Progress → Except Halt Progress

/-- What branches bring beyond `seed`, one after the other. -/
def TypeMap.gather (schema : Schema) (seed : TypeMap) :
    List Inferrer → (merged : TypeMap) → (exhausted : Bool) → Except Halt (TypeMap × Bool)
  | [], merged, exhausted => .ok (merged, exhausted)
  | infer :: infers, merged, exhausted => do
    let p ← infer { types := seed, exhausted }
    let merged ← p.attempt (mergeBranch schema seed merged p.types)
    gather schema seed infers merged p.exhausted

namespace Pass

/-- Merges a union, where each branch is inferred so. -/
def union (schema : Schema) (infers : List Inferrer) : Pass := fun p => do
  let (merged, exhausted) ← TypeMap.gather schema p.types infers .empty p.exhausted
  let (types, changed) := p.types.absorb merged
  return ({ types, exhausted }, changed)

/-- The steps in turn. -/
def all : List Pass → Pass
  | [] => idle
  | a :: as => a.andThen (all as)

end Pass

namespace Typist
variable (t : Typist) (rounds : Nat)

theorem inferBranches_eq (branches : List Scope) (seed merged : TypeMap) (exhausted : Bool) :
    t.inferBranches rounds branches seed merged exhausted =
      TypeMap.gather t.schema seed (branches.map (t.inferScope rounds)) merged exhausted := by
  induction branches generalizing merged exhausted with
  | nil => rw [inferBranches]; rfl
  | cons branch branches ih => simp only [inferBranches, List.map_cons, TypeMap.gather, ih]

theorem mergeUnions_eq (unions : List (List Scope)) :
    t.mergeUnions rounds unions =
      Pass.all (unions.map fun branches =>
        .union t.schema (branches.map (t.inferScope rounds))) := by
  induction unions with
  | nil => rw [mergeUnions]; rfl
  | cons branches unions ih =>
    simp only [mergeUnions, List.map_cons, Pass.all, ih, inferBranches_eq]
    rfl

/-- A scope is inferred in rounds, in which its unions are merged one after the other. -/
theorem inferScope_mk (statements : List Statement) (filters : List Expression)
    (unions : List (List Scope)) :
    t.inferScope rounds (.mk statements filters unions) =
      Pass.iterate
        (t.round rounds statements filters
          (Pass.all (unions.map fun branches =>
            .union t.schema (branches.map (t.inferScope rounds)))))
        rounds := by
  rw [inferScope, mergeUnions_eq]

end Typist

end OntoQuery
