import OntoQuery.Proofs.Naming
import OntoQuery.Proofs.Projection

/-!
# Solutions behind solutions

Expansion adds variables to the solutions of a group. Some are hidden: they stand for nodes between
the entities of one statement, and no other part of the body has them. The others are for newer
versions, and a filter of the group keeps only the solutions in which they have no node, the live
ones. A `Shadow` relates the two sides: what is asked for are the live solutions of what is written,
seen without hidden variables. The relation passes through each way in which patterns are combined.
-/

namespace OntoQuery

/-- No variable for a newer version has a node. -/
def Solution.Live (m : Solution) : Prop :=
  ∀ node, m (.newerVersion node) = none

theorem Solution.live_merge {m n : Solution} : (m.merge n).Live ↔ m.Live ∧ n.Live := by
  simp only [Live, merge, Option.or_eq_none_iff, forall_and]

theorem Group.mem_conditions {g : Group} {e : Expression} :
    e ∈ g.filterMap Pattern.condition? ↔ .filter e ∈ g := by
  rw [List.mem_filterMap]
  constructor
  · rintro ⟨p, hp, he⟩
    cases p with
    | filter e' =>
      cases he
      exact hp
    | _ => cases he
  · intro he
    exact ⟨_, he, rfl⟩

/-- The names are reserved, and none is for a newer version. -/
def Fresh (hidden : List Variable) : Prop :=
  ∀ v ∈ hidden, v.isReserved = true ∧ ∀ node, v ≠ .newerVersion node

/-- `Shadow keep hidden written as bs`: the solutions `bs` are the live ones of `as`, seen through
the variables to keep. The others of `as` are hidden ones, and ones for newer versions that a filter
of the group `written` rules out. -/
structure Shadow (keep : Variable → Bool) (hidden : List Variable) (written : Group)
    (as bs : Solutions) : Prop where
  within : ∀ a, as a → ∀ v, (a v).isSome = true → keep v = true ∨ v ∈ hidden ∨
    ∃ node, v = .newerVersion node ∧ .filter (.not (.bound v)) ∈ written
  seen : ∀ b, bs b ↔ ∃ a, as a ∧ a.Live ∧ a.restrict keep = b

namespace Shadow
variable {keep : Variable → Bool} {hidden hidden' : List Variable} {written written' : Group}
  {as bs cs ds : Solutions}

theorem mono (h : Shadow keep hidden written as bs) (hhidden : hidden ⊆ hidden')
    (hwritten : written ⊆ written') : Shadow keep hidden' written' as bs := by
  refine ⟨fun a ha v hv => ?_, h.seen⟩
  obtain hk | hh | ⟨node, rfl, hfilter⟩ := h.within a ha v hv
  · exact .inl hk
  · exact .inr (.inl (hhidden hh))
  · exact .inr (.inr ⟨node, rfl, hwritten hfilter⟩)

/-- Only live solutions count, so others with the same live ones have the same shadow. -/
theorem of_live (h : Shadow keep hidden written as bs) {as' : Solutions}
    (hwithin : ∀ a, as' a → ∀ v, (a v).isSome = true → keep v = true ∨ v ∈ hidden ∨
      ∃ node, v = .newerVersion node ∧ .filter (.not (.bound v)) ∈ written)
    (hlive : ∀ a : Solution, a.Live → (as' a ↔ as a)) : Shadow keep hidden written as' bs := by
  refine ⟨hwithin, fun b => ?_⟩
  rw [h.seen]
  constructor
  · rintro ⟨a, ha, hl, rfl⟩
    exact ⟨a, (hlive a hl).2 ha, hl, rfl⟩
  · rintro ⟨a, ha, hl, rfl⟩
    exact ⟨a, (hlive a hl).1 ha, hl, rfl⟩

section
variable (hkeep : ∀ v, keep v = true → v.isReserved = false)
include hkeep

/-- Reserved names are not kept. -/
theorem not_kept {v : Variable} (hv : v.isReserved = true) : keep v = false := by
  rw [← Bool.not_eq_true]
  intro hk
  exact Bool.false_ne_true ((hkeep v hk).symm.trans hv)

/-- Solutions over variables to keep are their own shadow. -/
theorem plain (h : ∀ b, bs b → ∀ v, (b v).isSome = true → keep v = true) :
    Shadow keep [] [] bs bs := by
  refine ⟨fun b hb v hv => .inl (h b hb v hv), fun b => ?_⟩
  have hself : ∀ b, bs b → b.Live ∧ b.restrict keep = b := by
    intro b hb
    refine ⟨fun node => Option.not_isSome_iff_eq_none.1 fun hbound => ?_, ?_⟩
    · have hnot := not_kept hkeep (Variable.newerVersion_reserved node)
      exact Bool.false_ne_true (hnot.symm.trans (h b hb _ hbound))
    · exact Solution.restrict_eq_self (h b hb)
  constructor
  · intro hb
    exact ⟨b, hb, hself b hb⟩
  · rintro ⟨a, ha, _, rfl⟩
    rwa [(hself a ha).2]

theorem live (h : Shadow keep hidden [] as bs) (hfresh : Fresh hidden) {a : Solution} (ha : as a) :
    a.Live := by
  intro node
  refine Option.not_isSome_iff_eq_none.1 fun hbound => ?_
  obtain hk | hh | ⟨_, _, hfilter⟩ := h.within a ha _ hbound
  · exact Bool.false_ne_true ((not_kept hkeep (Variable.newerVersion_reserved node)).symm.trans hk)
  · exact (hfresh _ hh).2 node rfl
  · cases hfilter

theorem seen_of_closed (h : Shadow keep hidden [] as bs) (hfresh : Fresh hidden) (b : Solution) :
    bs b ↔ ∃ a, as a ∧ a.restrict keep = b := by
  rw [h.seen]
  constructor
  · rintro ⟨a, ha, _, rfl⟩
    exact ⟨a, ha, rfl⟩
  · rintro ⟨a, ha, rfl⟩
    exact ⟨a, ha, h.live hkeep hfresh ha, rfl⟩

omit hkeep in
/-- Parts with different hidden variables meet in variables to keep only. -/
theorem meetIn (h : Shadow keep hidden written as bs) (h' : Shadow keep hidden' [] cs ds)
    (hdisjoint : ∀ v ∈ hidden, v ∉ hidden') (hfresh : Fresh hidden') {a c : Solution} (ha : as a)
    (hc : cs c) : Solution.MeetIn keep a c := by
  intro v hav hcv
  obtain hk | hh' | ⟨_, _, hfilter⟩ := h'.within c hc v hcv
  · exact hk
  · obtain hk | hh | ⟨node, rfl, _⟩ := h.within a ha v hav
    · exact hk
    · exact absurd hh' (hdisjoint v hh)
    · exact absurd rfl ((hfresh _ hh').2 node)
  · cases hfilter

variable (h : Shadow keep hidden written as bs) (h' : Shadow keep hidden' [] cs ds)
  (hdisjoint : ∀ v ∈ hidden, v ∉ hidden') (hfresh : Fresh hidden')
include h h' hdisjoint hfresh

omit hkeep in
theorem join : Shadow keep (hidden ++ hidden') written (as.join cs) (bs.join ds) := by
  constructor
  · rintro _ ⟨a, c, ha, hc, _, rfl⟩ v hv
    rw [Solution.isSome_merge, Bool.or_eq_true] at hv
    rcases hv with hv | hv
    · obtain hk | hh | hnewer := h.within a ha v hv
      · exact .inl hk
      · exact .inr (.inl (List.mem_append_left _ hh))
      · exact .inr (.inr hnewer)
    · obtain hk | hh | ⟨_, _, hfilter⟩ := h'.within c hc v hv
      · exact .inl hk
      · exact .inr (.inl (List.mem_append_right _ hh))
      · cases hfilter
  · intro m
    constructor
    · rintro ⟨b, d, hb, hd, hcompatible, rfl⟩
      obtain ⟨a, ha, hlive, rfl⟩ := (h.seen b).1 hb
      obtain ⟨c, hc, hlive', rfl⟩ := (h'.seen d).1 hd
      have hmeet := h.meetIn h' hdisjoint hfresh ha hc
      refine ⟨a.merge c, ⟨a, c, ha, hc, (Solution.compatible_restrict hmeet).1 hcompatible, rfl⟩,
        ?_, ?_⟩
      · exact Solution.live_merge.2 ⟨hlive, hlive'⟩
      · exact Solution.restrict_merge a c keep
    · rintro ⟨_, ⟨a, c, ha, hc, hcompatible, rfl⟩, hlive, rfl⟩
      obtain ⟨hlive, hlive'⟩ := Solution.live_merge.1 hlive
      have hmeet := h.meetIn h' hdisjoint hfresh ha hc
      refine ⟨a.restrict keep, c.restrict keep, (h.seen _).2 ⟨a, ha, hlive, rfl⟩,
        (h'.seen _).2 ⟨c, hc, hlive', rfl⟩, (Solution.compatible_restrict hmeet).2 hcompatible, ?_⟩
      exact Solution.restrict_merge a c keep

theorem leftJoin : Shadow keep (hidden ++ hidden') written (as.leftJoin cs) (bs.leftJoin ds) := by
  have hjoin := h.join h' hdisjoint hfresh
  have halone : ∀ a, as a →
      ((∀ c, cs c → ¬ a.Compatible c) ↔ ∀ d, ds d → ¬ (a.restrict keep).Compatible d) := by
    intro a ha
    constructor
    · intro hnone d hd hcompatible
      obtain ⟨c, hc, _, rfl⟩ := (h'.seen d).1 hd
      have hmeet := h.meetIn h' hdisjoint hfresh ha hc
      exact hnone c hc ((Solution.compatible_restrict hmeet).1 hcompatible)
    · intro hnone c hc hcompatible
      have hmeet := h.meetIn h' hdisjoint hfresh ha hc
      exact hnone _ ((h'.seen _).2 ⟨c, hc, h'.live hkeep hfresh hc, rfl⟩)
        ((Solution.compatible_restrict hmeet).2 hcompatible)
  constructor
  · rintro a (ha | ⟨ha, _⟩) v hv
    · exact hjoin.within a ha v hv
    · exact (h.mono (List.subset_append_left _ _) (List.Subset.refl _)).within a ha v hv
  · intro b
    constructor
    · rintro (hb | ⟨hb, hnone⟩)
      · obtain ⟨a, ha, hlive, rfl⟩ := (hjoin.seen b).1 hb
        exact ⟨a, .inl ha, hlive, rfl⟩
      · obtain ⟨a, ha, hlive, rfl⟩ := (h.seen b).1 hb
        exact ⟨a, .inr ⟨ha, (halone a ha).2 hnone⟩, hlive, rfl⟩
    · rintro ⟨a, ha | ⟨ha, hnone⟩, hlive, rfl⟩
      · exact .inl ((hjoin.seen _).2 ⟨a, ha, hlive, rfl⟩)
      · exact .inr ⟨(h.seen _).2 ⟨a, ha, hlive, rfl⟩, (halone a ha).1 hnone⟩

theorem minus : Shadow keep hidden written (as.minus cs) (bs.minus ds) := by
  have hagree : ∀ a, as a → ((∀ c, cs c → ¬ (a.Compatible c ∧ a.Shares c)) ↔
      ∀ d, ds d → ¬ ((a.restrict keep).Compatible d ∧ (a.restrict keep).Shares d)) := by
    intro a ha
    constructor
    · rintro hnone d hd ⟨hcompatible, hshares⟩
      obtain ⟨c, hc, _, rfl⟩ := (h'.seen d).1 hd
      have hmeet := h.meetIn h' hdisjoint hfresh ha hc
      exact hnone c hc ⟨(Solution.compatible_restrict hmeet).1 hcompatible,
        (Solution.shares_restrict hmeet).1 hshares⟩
    · rintro hnone c hc ⟨hcompatible, hshares⟩
      have hmeet := h.meetIn h' hdisjoint hfresh ha hc
      exact hnone _ ((h'.seen _).2 ⟨c, hc, h'.live hkeep hfresh hc, rfl⟩)
        ⟨(Solution.compatible_restrict hmeet).2 hcompatible,
          (Solution.shares_restrict hmeet).2 hshares⟩
  constructor
  · rintro a ⟨ha, _⟩ v hv
    exact h.within a ha v hv
  · intro b
    constructor
    · rintro ⟨hb, hnone⟩
      obtain ⟨a, ha, hlive, rfl⟩ := (h.seen b).1 hb
      exact ⟨a, ⟨ha, (hagree a ha).2 hnone⟩, hlive, rfl⟩
    · rintro ⟨a, ⟨ha, hnone⟩, hlive, rfl⟩
      exact ⟨(h.seen _).2 ⟨a, ha, hlive, rfl⟩, (hagree a ha).1 hnone⟩

end

theorem or (h : Shadow keep hidden written as bs) (h' : Shadow keep hidden' written cs ds) :
    Shadow keep (hidden ++ hidden') written (fun m => as m ∨ cs m) (fun m => bs m ∨ ds m) := by
  constructor
  · rintro a (ha | ha)
    · exact (h.mono (List.subset_append_left _ _) (List.Subset.refl _)).within a ha
    · exact (h'.mono (List.subset_append_right _ _) (List.Subset.refl _)).within a ha
  · intro b
    constructor
    · rintro (hb | hb)
      · obtain ⟨a, ha, hlive, rfl⟩ := (h.seen b).1 hb
        exact ⟨a, .inl ha, hlive, rfl⟩
      · obtain ⟨a, ha, hlive, rfl⟩ := (h'.seen b).1 hb
        exact ⟨a, .inr ha, hlive, rfl⟩
    · rintro ⟨a, ha | ha, hlive, rfl⟩
      · exact .inl ((h.seen _).2 ⟨a, ha, hlive, rfl⟩)
      · exact .inr ((h'.seen _).2 ⟨a, ha, hlive, rfl⟩)

/-- At the end of a group, its filters judge the live solutions as they judge what is seen of them,
and rule out the others. -/
theorem filtered {ops : Operators} {g : Group} (h : Shadow keep hidden written as bs)
    (hown : ∀ e, .filter e ∈ g → ∀ v, .var v ∈ e.typeables → keep v = true)
    (hkept : ∀ e, .filter e ∈ g → .filter e ∈ written)
    (hguards : ∀ e, .filter e ∈ written →
      .filter e ∈ g ∨ ∃ node, e = .not (.bound (.newerVersion node))) :
    Shadow keep hidden [] (written.filtered ops as) (g.filtered ops bs) := by
  constructor
  · rintro a ⟨ha, hholds⟩ v hv
    obtain hk | hh | ⟨node, rfl, hfilter⟩ := h.within a ha v hv
    · exact .inl hk
    · exact .inr (.inl hh)
    · have hnone :=
        (Expression.holds_not_bound ops a _).1 (hholds _ (Group.mem_conditions.2 hfilter))
      rw [hnone] at hv
      cases hv
  · intro b
    constructor
    · rintro ⟨hb, hholds⟩
      obtain ⟨a, ha, hlive, rfl⟩ := (h.seen b).1 hb
      refine ⟨a, ⟨ha, fun e he => ?_⟩, hlive, rfl⟩
      rcases hguards e (Group.mem_conditions.1 he) with hg | ⟨node, rfl⟩
      · exact (Expression.holds_restrict (hown e hg)).1 (hholds e (Group.mem_conditions.2 hg))
      · exact (Expression.holds_not_bound ops a _).2 (hlive node)
    · rintro ⟨a, ⟨ha, hholds⟩, hlive, rfl⟩
      refine ⟨(h.seen _).2 ⟨a, ha, hlive, rfl⟩, fun e he => ?_⟩
      have hg := Group.mem_conditions.1 he
      exact (Expression.holds_restrict (hown e hg)).2
        (hholds e (Group.mem_conditions.2 (hkept e hg)))

end Shadow

end OntoQuery
