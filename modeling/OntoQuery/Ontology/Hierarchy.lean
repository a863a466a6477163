import OntoQuery.Vocabulary

/-!
# Hierarchies

A hierarchy lists for each IRI the ones directly above it. `ancestors?` collects everything above an
IRI, nearest first: level by level, each level in the order in which the level below names it. It
fails if the IRI is above itself. `Chain` says what "above" means: a chain of steps to direct
parents.

A level with nothing new ends the search, and every earlier level brings an IRI that no level had
before; so one more step than there are IRIs is always enough. Level by level the search finds what
`search` finds, which takes IRIs from a queue one by one.
-/

namespace OntoQuery

/-- Each IRI with the ones directly above it, in order of definition. -/
abbrev Hierarchy := List (Iri × List Iri)

namespace Hierarchy

/-- The IRIs directly above `iri`. -/
def parents (h : Hierarchy) (iri : Iri) : List Iri :=
  (h.lookup iri).getD []

/-- The IRIs that the hierarchy has an entry for. -/
def names (h : Hierarchy) : List Iri :=
  h.map Prod.fst

theorem mem_of_mem_parents {h : Hierarchy} {iri above : Iri} (ha : above ∈ h.parents iri) :
    ∃ direct, (iri, direct) ∈ h ∧ above ∈ direct := by
  unfold parents at ha
  cases hl : h.lookup iri with
  | none => simp [hl] at ha
  | some direct =>
    obtain ⟨before, after, rfl, _⟩ := List.lookup_eq_some_iff.1 hl
    exact ⟨direct, by simp, by simpa [hl] using ha⟩

theorem parents_of_not_mem {h : Hierarchy} {iri : Iri} (hn : iri ∉ h.names) :
    h.parents iri = [] := by
  apply List.eq_nil_iff_forall_not_mem.2
  intro above ha
  obtain ⟨direct, hm, _⟩ := mem_of_mem_parents ha
  exact hn (List.mem_map.2 ⟨_, hm, rfl⟩)

/-- An IRI is reached from `start` by this many steps to a direct parent, at least one. -/
inductive Chain (h : Hierarchy) (start : Iri) : Nat → Iri → Prop where
  | parent {iri : Iri} : iri ∈ h.parents start → Chain h start 1 iri
  | step {n : Nat} {iri above : Iri} :
    Chain h start n iri → above ∈ h.parents iri → Chain h start (n + 1) above

/-- The IRIs of a level that are not among `seen`, each once. -/
def fresh (seen level : List Iri) : List Iri :=
  (level.filter (· ∉ seen)).eraseDups

/-- Adds `level` and all above it to `seen`, in at most `steps` levels; fails if `start` is in one
of them. -/
def climb (h : Hierarchy) (start : Iri) : Nat → List Iri → List Iri → Option (List Iri)
  | 0, _, seen => some seen
  | steps + 1, level, seen =>
    if level = [] then some seen
    else if start ∈ level then none
    else
      let new := fresh seen level
      climb h start steps (new.flatMap h.parents) (seen ++ new)

/-- There is less that has not been seen once something new has. -/
theorem countP_unseen_lt {names seen new : List Iri} {iri : Iri} (hname : iri ∈ names)
    (hseen : iri ∉ seen) (hnew : iri ∈ new) :
    names.countP (· ∉ seen ++ new) < names.countP (· ∉ seen) := by
  have hle (l : List Iri) : l.countP (· ∉ seen ++ new) ≤ l.countP (· ∉ seen) := by
    apply List.countP_mono_left
    intro other _ hother
    simp only [decide_eq_true_eq] at hother ⊢
    exact fun hmem => hother (List.mem_append_left _ hmem)
  obtain ⟨before, after, rfl⟩ := List.append_of_mem hname
  have hbefore := hle before
  have hafter := hle after
  have hnow : (decide (iri ∉ seen ++ new)) = false := by simp [hnew]
  have hearlier : (decide (iri ∉ seen)) = true := by simp [hseen]
  simp only [List.countP_append, List.countP_cons, hnow, hearlier] at hbefore hafter ⊢
  simp only [Bool.false_eq_true, if_false, if_true]
  omega

theorem countP_unseen_eq {names seen : List Iri} {iri : Iri} (hname : iri ∉ names) :
    names.countP (· ∉ seen ++ [iri]) = names.countP (· ∉ seen) := by
  apply List.countP_congr
  intro other hother
  have hne : other ≠ iri := fun heq => hname (heq ▸ hother)
  simp [hne]

/-- Adds what is in the queue and all above it to `seen`. Each IRI is taken from the front; one that
is new is seen now, and the ones directly above it go to the end. Fails if one of them is
`start`. -/
def search (h : Hierarchy) (start : Iri) : (queue seen : List Iri) → Option (List Iri)
  | [], seen => some seen
  | iri :: queue, seen =>
    if iri = start then none
    else if iri ∈ seen then search h start queue seen
    else search h start (queue ++ h.parents iri) (seen ++ [iri])
termination_by queue seen => (h.names.countP (· ∉ seen), queue.length)
decreasing_by
  · exact Prod.Lex.right _ (Nat.lt_succ_self _)
  · rename_i hseen
    by_cases hname : iri ∈ h.names
    · exact Prod.Lex.left _ _ (countP_unseen_lt hname hseen List.mem_cons_self)
    · -- Nothing is above an IRI without an entry, so the queue gets shorter.
      rw [parents_of_not_mem hname, List.append_nil, countP_unseen_eq hname]
      exact Prod.Lex.right _ (Nat.lt_succ_self _)

/-- Everything above `iri`, nearest first; `none` if `iri` is above itself. -/
def ancestors? (h : Hierarchy) (iri : Iri) : Option (List Iri) :=
  h.climb iri (h.length + 1) (h.parents iri) []

/-- Everything above each IRI, or the first IRI that is above itself. -/
def closure (h : Hierarchy) : Except Iri Hierarchy :=
  h.mapM fun (iri, _) =>
    match h.ancestors? iri with
    | some above => .ok (iri, above)
    | none => .error iri

/-- The IRIs that list `iri`, in order of definition. -/
def below (h : Hierarchy) (iri : Iri) : List Iri :=
  (h.filter (iri ∈ ·.2)).map Prod.fst

/-- The first IRI, with its first parent, whose parent is not in the hierarchy. -/
def orphan? (h : Hierarchy) : Option (Iri × Iri) :=
  h.findSome? fun (iri, direct) =>
    (direct.find? fun parent => !h.any (·.1 == parent)).map (iri, ·)

end Hierarchy

end OntoQuery
