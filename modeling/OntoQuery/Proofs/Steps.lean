import Mathlib.Data.List.Forall2

/-!
# Steps that can fail

A computation in `Except` that succeeds has succeeded at each of its steps. These lemmas take such a
computation apart: `bind_eq_ok` one step, `forall₂_of_mapM_ok` a step for each member of a list, and
`forM_eq_ok` a test of each member. One that fails has failed at some step (`bind_eq_error`), and at
the first member that fails (`mapM_eq_error`, `forM_eq_error`). `nodup_eraseDups` is about lists
that a computation keeps without repetition.
-/

namespace OntoQuery

variable {ε α β : Type}

theorem bind_eq_ok {x : Except ε α} {f : α → Except ε β} {b : β} :
    (x >>= f) = .ok b ↔ ∃ a, x = .ok a ∧ f a = .ok b := by
  cases x with
  | error e => simp [bind, Except.bind]
  | ok a => simp [bind, Except.bind]

theorem bind_eq_error {x : Except ε α} {f : α → Except ε β} {e : ε} :
    (x >>= f) = .error e ↔ x = .error e ∨ ∃ a, x = .ok a ∧ f a = .error e := by
  cases x with
  | error e' => simp [bind, Except.bind]
  | ok a => simp [bind, Except.bind]

/-- If the last step cannot fail, it is the one before that has failed. -/
theorem error_of_bind {x : Except ε α} {f : α → Except ε β} {e : ε} (h : (x >>= f) = .error e)
    (hf : ∀ a, (f a).isOk = true) : x = .error e := by
  apply (bind_eq_error.1 h).resolve_right
  rintro ⟨a, _, ha⟩
  have hok := hf a
  rw [ha] at hok
  cases hok

theorem pure_eq_ok {a b : α} : (pure a : Except ε α) = .ok b ↔ a = b := by
  simp [pure, Except.pure]

theorem map_eq_ok {x : Except ε α} {f : α → β} {b : β} :
    x.map f = .ok b ↔ ∃ a, x = .ok a ∧ f a = b := by
  cases x with
  | error e => simp [Except.map]
  | ok a => simp [Except.map]

theorem eq_ok_of_toOption {x : Except ε α} {a : α} (h : x.toOption = some a) : x = .ok a := by
  cases x with
  | error e => cases h
  | ok b => exact congrArg Except.ok (Option.some.inj h)

theorem mapError_eq_ok {ε' : Type} {x : Except ε α} {f : ε → ε'} {a : α} :
    x.mapError f = .ok a ↔ x = .ok a := by
  cases x with
  | error e => simp [Except.mapError]
  | ok b => simp [Except.mapError]

theorem mapError_eq_error {ε' : Type} {x : Except ε α} {f : ε → ε'} {e : ε'} :
    x.mapError f = .error e ↔ ∃ cause, x = .error cause ∧ f cause = e := by
  cases x with
  | error cause => simp [Except.mapError]
  | ok b => simp [Except.mapError]

/-- A list computed member by member has a result for each member, in order. -/
theorem forall₂_of_mapM_ok {f : α → Except ε β} {as : List α} {bs : List β}
    (h : as.mapM f = .ok bs) : List.Forall₂ (fun a b => f a = .ok b) as bs := by
  induction as generalizing bs with
  | nil =>
    rw [List.mapM_nil, pure_eq_ok] at h
    subst h
    exact .nil
  | cons a as ih =>
    rw [List.mapM_cons, bind_eq_ok] at h
    obtain ⟨b, hb, h⟩ := h
    rw [bind_eq_ok] at h
    obtain ⟨rest, hrest, h⟩ := h
    rw [pure_eq_ok] at h
    subst h
    exact .cons hb (ih hrest)

theorem exists_mapM_ok {f : α → Except ε β} {as : List α}
    (h : ∀ a ∈ as, ∃ b, f a = .ok b) : ∃ bs, as.mapM f = .ok bs := by
  induction as with
  | nil => exact ⟨[], rfl⟩
  | cons a as ih =>
    obtain ⟨b, hb⟩ := h a List.mem_cons_self
    obtain ⟨bs, hbs⟩ := ih fun a' ha' => h a' (List.mem_cons_of_mem _ ha')
    exact ⟨b :: bs, by rw [List.mapM_cons, hb, hbs]; rfl⟩

theorem mapM_congr {f g : α → Except ε β} {as : List α} (h : ∀ a ∈ as, f a = g a) :
    as.mapM f = as.mapM g := by
  induction as with
  | nil => rfl
  | cons a as ih =>
    have hrest := ih fun a' ha' => h a' (List.mem_cons_of_mem _ ha')
    rw [List.mapM_cons, List.mapM_cons, h a List.mem_cons_self, hrest]

/-- A list computed member by member fails as its first member that fails does. -/
theorem mapM_eq_error {f : α → Except ε β} {as : List α} {e : ε} :
    as.mapM f = .error e ↔
      ∃ before a after, as = before ++ a :: after ∧ (∀ b ∈ before, ∃ r, f b = .ok r) ∧
        f a = .error e := by
  constructor
  · intro h
    induction as with
    | nil => cases h
    | cons a as ih =>
      rw [List.mapM_cons, bind_eq_error] at h
      cases h with
      | inl ha => exact ⟨[], a, as, rfl, by simp, ha⟩
      | inr h =>
        obtain ⟨r, ha, h⟩ := h
        obtain ⟨before, b, after, rfl, hbefore, hb⟩ := ih (error_of_bind h fun _ => rfl)
        exact ⟨a :: before, b, after, rfl, by simpa using ⟨⟨r, ha⟩, hbefore⟩, hb⟩
  · rintro ⟨before, a, after, rfl, hbefore, ha⟩
    induction before with
    | nil => rw [List.nil_append, List.mapM_cons, ha]; rfl
    | cons b before ih =>
      obtain ⟨r, hb⟩ := hbefore b List.mem_cons_self
      have hrest := ih fun c hc => hbefore c (List.mem_cons_of_mem _ hc)
      rw [List.cons_append, List.mapM_cons, hb, hrest]
      rfl

section
variable {R : α → β → Prop} {as : List α} {bs : List β}

theorem exists_of_mem_left (h : List.Forall₂ R as bs) {a : α} (ha : a ∈ as) : ∃ b ∈ bs, R a b := by
  induction h with
  | nil => cases ha
  | cons hab _ ih =>
    rcases List.mem_cons.1 ha with rfl | ha
    · exact ⟨_, List.mem_cons_self, hab⟩
    · obtain ⟨b, hb, hr⟩ := ih ha
      exact ⟨b, List.mem_cons_of_mem _ hb, hr⟩

theorem exists_of_mem_right (h : List.Forall₂ R as bs) {b : β} (hb : b ∈ bs) : ∃ a ∈ as, R a b :=
  exists_of_mem_left h.flip hb

end

theorem forall₂_map {γ : Type} {R : α → β → Prop} {f : γ → α} {g : γ → β} {as : List γ}
    (h : ∀ a ∈ as, R (f a) (g a)) : List.Forall₂ R (as.map f) (as.map g) :=
  List.forall₂_map_left_iff.2 (List.forall₂_map_right_iff.2 (List.forall₂_same.2 h))

theorem forall₂_map_of_mem {γ δ : Type} {R : α → β → Prop} {S : γ → δ → Prop}
    {f : α → γ} {g : β → δ} {as : List α} {bs : List β} (h : List.Forall₂ R as bs)
    (hS : ∀ a ∈ as, ∀ b, R a b → S (f a) (g b)) : List.Forall₂ S (as.map f) (bs.map g) := by
  induction h with
  | nil => exact .nil
  | cons hab _ ih =>
    exact .cons (hS _ List.mem_cons_self _ hab) (ih fun a ha => hS a (List.mem_cons_of_mem _ ha))

/-- The tests of a list pass if each of them does. -/
theorem forM_eq_ok {f : α → Except ε PUnit} {as : List α} :
    as.forM f = .ok () ↔ ∀ a ∈ as, f a = .ok () := by
  rw [List.forM_eq_forM]
  induction as with
  | nil => simp [pure, Except.pure]
  | cons b as ih =>
    rw [List.forM_cons, bind_eq_ok, List.forall_mem_cons, ← ih]
    exact ⟨fun ⟨_, hb, has⟩ => ⟨hb, has⟩, fun ⟨hb, has⟩ => ⟨_, hb, has⟩⟩

/-- A test that passes on a list passes on each member. -/
theorem of_forM_ok {f : α → Except ε PUnit} {as : List α} (h : as.forM f = .ok ()) :
    ∀ a ∈ as, f a = .ok () :=
  forM_eq_ok.1 h

/-- The tests of a list fail as the first of them that fails does. -/
theorem forM_eq_error {f : α → Except ε PUnit} {as : List α} {e : ε} :
    as.forM f = .error e ↔
      ∃ before a after, as = before ++ a :: after ∧ (∀ b ∈ before, f b = .ok ()) ∧
        f a = .error e := by
  constructor
  · intro h
    induction as with
    | nil => cases h
    | cons a as ih =>
      rw [List.forM_eq_forM, List.forM_cons, bind_eq_error] at h
      cases h with
      | inl ha => exact ⟨[], a, as, rfl, by simp, ha⟩
      | inr h =>
        obtain ⟨_, ha, h⟩ := h
        obtain ⟨before, b, after, rfl, hbefore, hb⟩ := ih h
        exact ⟨a :: before, b, after, rfl, by simpa using ⟨ha, hbefore⟩, hb⟩
  · rintro ⟨before, a, after, rfl, hbefore, ha⟩
    have hpass := forM_eq_ok.2 hbefore
    rw [List.forM_eq_forM] at hpass ⊢
    rw [List.forM_append, List.forM_cons, hpass, ha]
    rfl

/-- Lists made of parts are tested alike if the parts are. -/
theorem forM_flatMap_congr {γ : Type} {f : β → Except ε PUnit} {g : γ → Except ε PUnit}
    {bs : α → List β} {cs : α → List γ} {as : List α}
    (h : ∀ a ∈ as, (bs a).forM f = (cs a).forM g) :
    (as.flatMap bs).forM f = (as.flatMap cs).forM g := by
  simp only [List.forM_eq_forM] at h ⊢
  induction as with
  | nil => rfl
  | cons a as ih =>
    have hrest := ih fun a' ha' => h a' (List.mem_cons_of_mem _ ha')
    have hfirst := h a List.mem_cons_self
    rw [List.flatMap_cons, List.flatMap_cons, List.forM_append, List.forM_append, hfirst, hrest]

theorem nodup_eraseDups {α : Type} [DecidableEq α] (as : List α) : as.eraseDups.Nodup := by
  -- What is left after the first member is shorter, but no tail: the induction is on the length.
  induction hn : as.length using Nat.strongRecOn generalizing as with
  | _ n ih =>
    cases as with
    | nil => exact List.nodup_nil
    | cons a as =>
      have hlt : (as.filter fun b => !b == a).length < n := by
        have hle := List.length_filter_le (fun b => !b == a) as
        simp only [List.length_cons] at hn
        omega
      have hnot : a ∉ (as.filter fun b => !b == a).eraseDups := by simp [List.mem_eraseDups]
      rw [List.eraseDups_cons]
      exact List.nodup_cons.2 ⟨hnot, ih _ hlt _ rfl⟩

end OntoQuery
