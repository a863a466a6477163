import OntoQuery.Proofs.Scopes

/-!
# More rounds

Inference runs in rounds, and a run that comes to their end says so (`ranOut`). What such a run
found depends on the bound; what another run found does not. Here it is proved that a run that did
not run out ends the same way with more rounds, whether it ends with types or with a fault
(`Typist.infer_eq_of_le`).

Since scopes share one flag, the argument needs that nothing takes the flag back: once a scope has
run out, so has the whole run. `Outlasts` has this together with the comparison, and it passes
through each combinator that inference is made of.
-/

namespace OntoQuery

section
variable {α β : Type}

/-- Whether some scope had run out of rounds in the end, where `flag` reads it off a result. -/
def ranOut (flag : α → Bool) : Except Halt α → Bool
  | .ok a => flag a
  | .error halt => halt.exhausted

/-- The computation `x` has run out at the end if it had at the start, and `y` is the same unless
`x` has run out. -/
structure Outlasts (flag : α → Bool) (start : Bool) (x y : Except Halt α) : Prop where
  keeps : start = true → ranOut flag x = true
  same : ranOut flag x = false → y = x

variable {flag : α → Bool} {flag' : β → Bool} {start : Bool}

theorem Outlasts.ok {a : α} (h : start = true → flag a = true) :
    Outlasts flag start (.ok a) (.ok a) :=
  ⟨h, fun _ => rfl⟩

theorem Outlasts.bind {x y : Except Halt α} {f g : α → Except Halt β} (h : Outlasts flag start x y)
    (hfg : ∀ a, Outlasts flag' (flag a) (f a) (g a)) :
    Outlasts flag' start (x >>= f) (y >>= g) := by
  cases x with
  | error halt =>
    refine ⟨h.keeps, fun hout => ?_⟩
    rw [h.same hout]
    rfl
  | ok a =>
    refine ⟨fun hstart => (hfg a).keeps (h.keeps hstart), fun hout => ?_⟩
    have hnot : flag a = false := by
      -- If the first part had run out, the whole would have.
      by_contra hflag
      have hkeeps := (hfg a).keeps (Bool.not_eq_false _ ▸ hflag)
      exact Bool.false_ne_true (hout.symm.trans hkeeps)
    rw [h.same hnot]
    exact (hfg a).same hout

theorem Progress.attempt_outlasts (p : Progress) (x : Except Fault α) :
    Outlasts (fun _ => p.exhausted) p.exhausted (p.attempt x) (p.attempt x) := by
  refine ⟨fun h => ?_, fun _ => rfl⟩
  cases x with
  | ok a => exact h
  | error fault => exact h

end

/-- Where the step `a` does not run out, `b` does the same. -/
def Pass.Outlasts (a b : Pass) : Prop :=
  ∀ p, OntoQuery.Outlasts (·.1.exhausted) p.exhausted (a p) (b p)

/-- Where `a` does not run out, `b` infers the same. -/
def Inferrer.Outlasts (a b : Inferrer) : Prop :=
  ∀ p, OntoQuery.Outlasts (·.exhausted) p.exhausted (a p) (b p)

namespace Pass

theorem Outlasts.andThen {a a' b b' : Pass} (ha : a.Outlasts a') (hb : b.Outlasts b') :
    (a.andThen b).Outlasts (a'.andThen b') :=
  fun p => (ha p).bind fun made => (hb made.1).bind fun _ => .ok id

theorem Outlasts.all {as as' : List Pass} (h : List.Forall₂ Outlasts as as') :
    (Pass.all as).Outlasts (Pass.all as') := by
  induction h with
  | nil => exact fun _ => .ok id
  | cons ha _ ih => exact ha.andThen ih

theorem ofRule_outlasts (r : Rule) : (ofRule r).Outlasts (ofRule r) :=
  fun p => (p.attempt_outlasts (r p.types)).bind fun _ => .ok id

theorem settle_outlasts (r : Rule) {rounds more : Nat} (hle : rounds ≤ more) :
    (settle r rounds).Outlasts (settle r more) := by
  induction rounds generalizing more with
  | zero =>
    intro p
    refine ⟨fun _ => rfl, fun hout => ?_⟩
    cases hout
  | succ rounds ih =>
    obtain ⟨more, rfl⟩ : ∃ n, more = n + 1 := ⟨more - 1, by omega⟩
    intro p
    refine (ofRule_outlasts r p).bind fun made => ?_
    dsimp only
    split
    · exact (ih (Nat.le_of_succ_le_succ hle) made.1).bind fun _ => .ok id
    · exact .ok id

theorem Outlasts.iterate {a b : Pass} (h : a.Outlasts b) {rounds more : Nat} (hle : rounds ≤ more) :
    Inferrer.Outlasts (iterate a rounds) (iterate b more) := by
  induction rounds generalizing more with
  | zero =>
    intro p
    refine ⟨fun _ => rfl, fun hout => ?_⟩
    cases hout
  | succ rounds ih =>
    obtain ⟨more, rfl⟩ : ∃ n, more = n + 1 := ⟨more - 1, by omega⟩
    intro p
    refine (h p).bind fun made => ?_
    dsimp only
    split
    · exact ih (Nat.le_of_succ_le_succ hle) made.1
    · exact .ok id

end Pass

theorem TypeMap.gather_outlasts (schema : Schema) (seed : TypeMap) {as bs : List Inferrer}
    (h : List.Forall₂ Inferrer.Outlasts as bs) (merged : TypeMap) (exhausted : Bool) :
    Outlasts Prod.snd exhausted (gather schema seed as merged exhausted)
      (gather schema seed bs merged exhausted) := by
  induction h generalizing merged exhausted with
  | nil => exact .ok id
  | cons ha _ ih =>
    refine (ha { types := seed, exhausted }).bind fun p => ?_
    exact (p.attempt_outlasts (mergeBranch schema seed merged p.types)).bind fun made =>
      ih made p.exhausted

theorem Pass.union_outlasts (schema : Schema) {as bs : List Inferrer}
    (h : List.Forall₂ Inferrer.Outlasts as bs) : (union schema as).Outlasts (union schema bs) :=
  fun p => (TypeMap.gather_outlasts schema p.types h .empty p.exhausted).bind fun _ => .ok id

namespace Typist
variable (t : Typist) {rounds more : Nat} (hle : rounds ≤ more)
include hle

theorem round_outlasts (statements : List Statement) (filters : List Expression)
    {unions unions' : Pass} (h : unions.Outlasts unions') :
    (t.round rounds statements filters unions).Outlasts
      (t.round more statements filters unions') := by
  intro p
  refine (((Pass.settle_outlasts _ hle).andThen h) p).bind fun made => ?_
  dsimp only
  split
  · exact .ok id
  · exact Pass.ofRule_outlasts _ made.1

/-- **A scope that does not run out of rounds is inferred the same with more of them.** -/
theorem inferScope_outlasts (scope : Scope) :
    Inferrer.Outlasts (t.inferScope rounds scope) (t.inferScope more scope) := by
  induction scope using Scope.by_unions with
  | mk statements filters unions ih =>
    rw [inferScope_mk, inferScope_mk]
    refine Pass.Outlasts.iterate (t.round_outlasts hle statements filters ?_) hle
    refine .all (forall₂_map fun branches hbranches => ?_)
    exact Pass.union_outlasts t.schema (forall₂_map (ih branches hbranches))

/-- A run that did not run out ends the same way with more rounds. -/
theorem infer_eq_of_le (body : Group)
    (hout : ranOut (·.exhausted) (t.infer rounds body) = false) :
    t.infer more body = t.infer rounds body := by
  have hmax : max rounds 1 ≤ max more 1 := by omega
  exact (t.inferScope_outlasts hmax (Scope.ofGroup body) _).same hout

end Typist

end OntoQuery
