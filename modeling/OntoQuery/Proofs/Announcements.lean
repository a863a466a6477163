import OntoQuery.Ontology.Holder

/-!
# Runs of a holder

A run is a list of operations on one holder: reading the current edition, registering a listener,
installing an ontology. `Holder.run` carries them out and records, turn by turn, what each gives
back and what happens during it. `holder_runs` compares the record with two things that are read off
the record alone, without the holder: the edition that the last replacement installed
(`Turn.edition`), and the listeners registered so far (`Turn.registered`), among them those that
listeners register themselves while they are told of an edition.

Listeners act in any way, since the behaviour is any function. That it says at once what a listener
asks for is no restriction: reading gives the edition that the listener is told of, which the
function knows.
-/

namespace OntoQuery

/-- What is asked of a holder from outside. -/
inductive Operation (ι : Type) where
  | current
  | listen (listener : ι)
  | replace (ontology : Ontology)

/-- The ontology that an operation installs. -/
def Operation.ontology? {ι : Type} : Operation ι → Option Ontology
  | replace o => some o
  | _ => none

/-- The listener that a request registers. -/
def Request.listener? {ι : Type} : Request ι → Option ι
  | read => none
  | register l => some l

/-- The listener that is told, and of which edition. -/
def Event.told? {ι : Type} : Event ι → Option (ι × Edition)
  | told l e => some (l, e)
  | read .. => none

/-- One operation of a run: the edition that it gives back, and what happens during it. -/
structure Turn (ι : Type) where
  operation : Operation ι
  gives : Option Edition
  events : List (Event ι)

namespace Holder
variable {ι : Type}

/-- Carries out an operation. Gives what it gives back, the holder afterwards, and all events with
those so far. -/
def perform (behave : Behaviour ι) (h : Holder ι) (past : List (Event ι)) :
    Operation ι → Option Edition × Holder ι × List (Event ι)
  | .current => (some h.current, h, past)
  | .listen l => (none, h.listen l, past)
  | .replace o =>
    let (previous, h, events) := h.replace behave past o
    (some previous, h, events)

/-- The turns of a run. -/
def run (behave : Behaviour ι) : Holder ι → List (Event ι) → List (Operation ι) → List (Turn ι)
  | _, _, [] => []
  | h, past, op :: ops =>
    let (gives, h, events) := h.perform behave past op
    ⟨op, gives, events.drop past.length⟩ :: run behave h events ops

/-! ## What one announcement does -/

section
variable (behave : Behaviour ι)

/-- The answers to what a listener reads, while the edition is the current one. -/
def answers (l : ι) (e : Edition) : List (Request ι) → List (Event ι)
  | [] => []
  | .read :: requests => .read l e :: answers l e requests
  | .register _ :: requests => answers l e requests

/-- What happens while an edition is announced: each listener is told, and then has its answers. -/
def announcement (e : Edition) : List ι → List (Event ι) → List (Event ι)
  | [], _ => []
  | l :: ls, past =>
    let own := .told l e :: answers l e (behave (past ++ [.told l e]) l e)
    own ++ announcement e ls (past ++ own)

/-- The listeners registered during some events, by those that are told. -/
def newListeners : List (Event ι) → List (Event ι) → List ι
  | _, [] => []
  | past, .told l e :: events =>
    (behave (past ++ [.told l e]) l e).filterMap Request.listener? ++
      newListeners (past ++ [.told l e]) events
  | past, .read l e :: events => newListeners (past ++ [.read l e]) events

theorem newListeners_append (past events later : List (Event ι)) :
    newListeners behave past (events ++ later) =
      newListeners behave past events ++ newListeners behave (past ++ events) later := by
  induction events generalizing past with
  | nil => simp [newListeners]
  | cons event events ih =>
    cases event with
    | told l e => simp [newListeners, ih]
    | read l e => simp [newListeners, ih]

/-- No listener is registered by an answer. -/
theorem newListeners_answers (past : List (Event ι)) (l : ι) (e : Edition)
    (requests : List (Request ι)) : newListeners behave past (answers l e requests) = [] := by
  induction requests generalizing past with
  | nil => rfl
  | cons request requests ih =>
    cases request with
    | read => exact ih _
    | register other => exact ih _

theorem serve_eq (l : ι) (requests : List (Request ι)) (h : Holder ι) (past : List (Event ι)) :
    serve l requests (h, past) =
      ({ h with listeners := h.listeners ++ requests.filterMap Request.listener? },
        past ++ answers l h.current requests) := by
  induction requests generalizing h past with
  | nil => simp [serve, answers]
  | cons request requests ih =>
    cases request with
    | read => simp [serve, answers, List.filterMap_cons, Request.listener?, ih]
    | register other => simp [serve, answers, Request.listener?, listen, ih]

/-- An announcement of the current edition leaves it current, and adds the listeners that are
registered in its course to the others. -/
theorem announce_eq (ls : List ι) (h : Holder ι) (past : List (Event ι)) :
    announce behave h.current ls (h, past) =
      let events := announcement behave h.current ls past
      ({ h with listeners := h.listeners ++ newListeners behave past events }, past ++ events) := by
  induction ls generalizing h past with
  | nil => simp [announce, announcement, newListeners]
  | cons l ls ih =>
    -- The holder after the first listener has the same edition, and the induction is about that
    -- holder.
    have hrest := ih
      { h with listeners := h.listeners ++
          (behave (past ++ [.told l h.current]) l h.current).filterMap Request.listener? }
      (past ++ [.told l h.current] ++
        answers l h.current (behave (past ++ [.told l h.current]) l h.current))
    rw [announce, serve_eq]
    dsimp only at hrest ⊢
    rw [hrest, announcement]
    simp [newListeners, newListeners_append, newListeners_answers]

theorem told_answers (l : ι) (e : Edition) (requests : List (Request ι)) :
    (answers l e requests).filterMap Event.told? = [] := by
  induction requests with
  | nil => rfl
  | cons request requests ih =>
    cases request with
    | read => exact ih
    | register other => exact ih

theorem mem_answers {l : ι} {e : Edition} {requests : List (Request ι)} {event : Event ι}
    (h : event ∈ answers l e requests) : event = .read l e := by
  induction requests with
  | nil => cases h
  | cons request requests ih =>
    cases request with
    | read =>
      rcases List.mem_cons.1 h with rfl | h
      · rfl
      · exact ih h
    | register other => exact ih h

/-- Each listener is told once, in order. -/
theorem told_announcement (e : Edition) (ls : List ι) (past : List (Event ι)) :
    (announcement behave e ls past).filterMap Event.told? = ls.map (·, e) := by
  induction ls generalizing past with
  | nil => rfl
  | cons l ls ih => simp [announcement, Event.told?, told_answers, ih]

/-- Whatever is told or read during an announcement is the edition that is announced. -/
theorem edition_announcement {e : Edition} {ls : List ι} {past : List (Event ι)} {l : ι}
    {e' : Edition} (h : .told l e' ∈ announcement behave e ls past ∨
      .read l e' ∈ announcement behave e ls past) : e' = e := by
  induction ls generalizing past with
  | nil => rcases h with h | h <;> cases h
  | cons first ls ih =>
    simp only [announcement, List.mem_append, List.mem_cons, Event.told.injEq, reduceCtorEq,
      false_or] at h
    rcases h with ((⟨_, rfl⟩ | h) | h) | (h | h)
    · rfl
    · cases mem_answers h
    · exact ih (.inl h)
    · cases mem_answers h
      rfl
    · exact ih (.inr h)

end

end Holder

/-! ## What the record says -/

namespace Turn
variable {ι : Type}

/-- The ontologies that turns install, in order. -/
def installed (turns : List (Turn ι)) : List Ontology :=
  turns.filterMap (·.operation.ontology?)

/-- The edition that some turns leave behind a given one: the last one installed. -/
def editionAfter (first : Edition) (turns : List (Turn ι)) : Edition :=
  ⟨first.number + (installed turns).length, (installed turns).getLast?.getD first.ontology⟩

/-- The edition that the last replacement installed; or the initial ontology, which counts as 0. -/
def edition (o : Ontology) (turns : List (Turn ι)) : Edition :=
  editionAfter ⟨0, o⟩ turns

/-- The listeners registered in turns, after some events: from outside, and by those that are
told. -/
def registered (behave : Holder.Behaviour ι) : List (Event ι) → List (Turn ι) → List ι
  | _, [] => []
  | past, t :: turns =>
    (match t.operation with
      | .listen l => [l]
      | _ => Holder.newListeners behave past t.events) ++
    registered behave (past ++ t.events) turns

/-- The edition comes out of the turn: it is given back, or a listener is told of it or reads it. -/
def Shows (t : Turn ι) (e : Edition) : Prop :=
  t.gives = some e ∨ ∃ l, .told l e ∈ t.events ∨ .read l e ∈ t.events

/-- The turn is as it has to be when `e` is the current edition, `ls` are registered and `past` has
happened. A replacement gives back what was current, each of `ls` is told of the next edition once
and in order, and its readings give the next edition. Nothing happens in other turns. -/
def Proper (behave : Holder.Behaviour ι) (e : Edition) (ls : List ι) (past : List (Event ι))
    (t : Turn ι) : Prop :=
  match t.operation with
  | .current => t.gives = some e ∧ t.events = []
  | .listen _ => t.gives = none ∧ t.events = []
  | .replace o =>
    t.gives = some e ∧
    t.events.filterMap Event.told? = ls.map (·, ⟨e.number + 1, o⟩) ∧
    t.events = Holder.announcement behave ⟨e.number + 1, o⟩ ls past ∧
    ∀ l e', .read l e' ∈ t.events → e' = ⟨e.number + 1, o⟩

theorem editionAfter_cons (first : Edition) (t : Turn ι) (turns : List (Turn ι)) :
    editionAfter first (t :: turns) = editionAfter (editionAfter first [t]) turns := by
  cases ho : t.operation.ontology? with
  | none => simp [editionAfter, installed, ho]
  | some o =>
    simp only [editionAfter, installed, List.filterMap_cons, ho, List.filterMap_nil,
      List.length_cons, List.length_nil, List.getLast?_singleton, Option.getD_some,
      Edition.mk.injEq]
    refine ⟨by omega, ?_⟩
    rw [List.getLast?_cons, Option.getD_some]

end Turn

namespace Holder
variable {ι : Type} {behave : Behaviour ι}

/-- **What one operation does.** Its turn is proper; afterwards the current edition and the
listeners are those that the turn leaves. -/
theorem perform_ok (behave : Behaviour ι) (h : Holder ι) (past : List (Event ι))
    (op : Operation ι) :
    ∃ t : Turn ι, ∃ h' : Holder ι,
      h.perform behave past op = (t.gives, h', past ++ t.events) ∧ t.operation = op ∧
      t.Proper behave h.current h.listeners past ∧
      h'.current = Turn.editionAfter h.current [t] ∧
      h'.listeners = h.listeners ++ Turn.registered behave past [t] := by
  cases op with
  | current =>
    refine ⟨⟨.current, some h.current, []⟩, h, ?_, rfl, ⟨rfl, rfl⟩, rfl, ?_⟩
    · simp [perform]
    · simp [Turn.registered, newListeners]
  | listen l =>
    refine ⟨⟨.listen l, none, []⟩, h.listen l, ?_, rfl, ⟨rfl, rfl⟩, rfl, ?_⟩
    · simp [perform]
    · simp [Turn.registered, listen]
  | replace o =>
    let next : Edition := ⟨h.current.number + 1, o⟩
    let events := announcement behave next h.listeners past
    refine ⟨⟨.replace o, some h.current, events⟩,
      ⟨next, h.listeners ++ newListeners behave past events⟩, ?_, rfl, ?_, rfl, ?_⟩
    · simp only [perform, replace]
      rw [announce_eq behave h.listeners { h with current := next } past]
    · exact ⟨rfl, told_announcement behave _ _ _, rfl, fun l e' he =>
        edition_announcement behave (.inr he)⟩
    · simp [Turn.registered]

/-- The first turn of a run, and the rest of it. -/
theorem run_cons (behave : Behaviour ι) (h : Holder ι) (past : List (Event ι))
    (op : Operation ι) (ops : List (Operation ι)) :
    ∃ t : Turn ι, ∃ h' : Holder ι,
      run behave h past (op :: ops) = t :: run behave h' (past ++ t.events) ops ∧
      t.operation = op ∧ t.Proper behave h.current h.listeners past ∧
      h'.current = Turn.editionAfter h.current [t] ∧
      h'.listeners = h.listeners ++ Turn.registered behave past [t] := by
  obtain ⟨⟨op', gives, events⟩, h', hperform, hop, hrest⟩ := perform_ok behave h past op
  refine ⟨⟨op', gives, events⟩, h', ?_, hop, hrest⟩
  dsimp only at hop hperform
  subst hop
  rw [run, hperform]
  simp

theorem operations_run (h : Holder ι) (past : List (Event ι)) (ops : List (Operation ι)) :
    (run behave h past ops).map Turn.operation = ops := by
  induction ops generalizing h past with
  | nil => rfl
  | cons op ops ih =>
    obtain ⟨t, h', hrun, hop, _⟩ := run_cons behave h past op ops
    rw [hrun, List.map_cons, ih, hop]

/-- Later operations change no earlier turn. -/
theorem run_prefix (h : Holder ι) (past : List (Event ι)) (ops later : List (Operation ι)) :
    run behave h past ops <+: run behave h past (ops ++ later) := by
  induction ops generalizing h past with
  | nil => exact List.nil_prefix
  | cons op ops ih =>
    rw [List.cons_append, run, run]
    exact (List.prefix_cons_inj _).2 (ih _ _)

/-- Every turn of a run is proper for what the turns before it leave. -/
theorem proper_of_run {h : Holder ι} {past : List (Event ι)} {ops : List (Operation ι)}
    {before after : List (Turn ι)} {t : Turn ι}
    (hrun : run behave h past ops = before ++ t :: after) :
    t.Proper behave (Turn.editionAfter h.current before)
      (h.listeners ++ Turn.registered behave past before)
      (past ++ before.flatMap Turn.events) := by
  induction before generalizing h past ops with
  | nil =>
    cases ops with
    | nil => cases hrun
    | cons op ops =>
      obtain ⟨first, h', hfirst, _, hproper, _⟩ := run_cons behave h past op ops
      rw [hfirst, List.nil_append, List.cons.injEq] at hrun
      obtain ⟨rfl, _⟩ := hrun
      simpa [Turn.editionAfter, Turn.installed, Turn.registered] using hproper
  | cons first before ih =>
    cases ops with
    | nil => cases hrun
    | cons op ops =>
      obtain ⟨first', h', hfirst, _, _, hcurrent, hlisteners⟩ :=
        run_cons behave h past op ops
      rw [hfirst, List.cons_append, List.cons.injEq] at hrun
      obtain ⟨rfl, hrest⟩ := hrun
      have hproper := ih hrest
      rw [hcurrent, hlisteners, ← Turn.editionAfter_cons] at hproper
      simpa [Turn.registered] using hproper

end Holder

namespace Turn
variable {ι : Type} {behave : Holder.Behaviour ι}

/-- What comes out of a proper turn is the edition that was current, or the one that the turn
installs. -/
theorem Proper.shows {e e' : Edition} {ls : List ι} {past : List (Event ι)} {t : Turn ι}
    (h : t.Proper behave e ls past) (hshows : t.Shows e') :
    e' = e ∨ ∃ o, t.operation = .replace o ∧ e' = ⟨e.number + 1, o⟩ := by
  obtain ⟨op, gives, events⟩ := t
  cases op with
  | current =>
    obtain ⟨rfl, rfl⟩ := h
    rcases hshows with hgives | ⟨_, hevent | hevent⟩
    · exact .inl (Option.some.inj hgives).symm
    · cases hevent
    · cases hevent
  | listen l =>
    obtain ⟨rfl, rfl⟩ := h
    rcases hshows with hgives | ⟨_, hevent | hevent⟩
    · cases hgives
    · cases hevent
    · cases hevent
  | replace o =>
    obtain ⟨rfl, _, rfl, _⟩ := h
    rcases hshows with hgives | ⟨_, hevent⟩
    · exact .inl (Option.some.inj hgives).symm
    · exact .inr ⟨o, rfl, Holder.edition_announcement behave hevent⟩

theorem installed_eq (turns : List (Turn ι)) :
    installed turns = (turns.map operation).filterMap Operation.ontology? := by
  rw [installed, List.filterMap_map]
  rfl

/-- The edition that turns leave is one of the ontologies installed, at its place. -/
theorem getElem?_edition (o : Ontology) (turns : List (Turn ι)) (more : List Ontology) :
    (o :: (installed turns ++ more))[(edition o turns).number]? =
      some (edition o turns).ontology := by
  simp only [edition, editionAfter, Nat.zero_add]
  cases hlast : (installed turns).getLast? with
  | none => simp [List.getLast?_eq_none_iff.1 hlast]
  | some last =>
    obtain ⟨rest, hrest⟩ := List.getLast?_eq_some_iff.1 hlast
    simp [hrest]

end Turn

/-- **Runs of a holder.** Take any run on a holder that starts with some ontology, for any behaviour
of the listeners.

* Each operation has its turn, and no later operation changes what has come out of an earlier one.
* An edition that comes out of the run at any place, to whomever, is the ontology that the
  replacement of its number has installed (0 for the initial one).
* Reading gives the edition of the last replacement, or the initial one. A replacement gives back
  that edition; then it tells exactly the listeners that were registered before it began, each once
  and in the order of registration, of the next edition, which is also what they read meanwhile. So
  a listener that is registered meanwhile is told from the next replacement on. -/
theorem holder_runs {ι : Type} (behave : Holder.Behaviour ι) (o : Ontology)
    (ops : List (Operation ι)) :
    let turns := Holder.run behave (.ofOntology o) [] ops
    turns.map Turn.operation = ops ∧
    (∀ later, turns <+: Holder.run behave (.ofOntology o) [] (ops ++ later)) ∧
    (∀ t ∈ turns, ∀ e, t.Shows e →
      (o :: ops.filterMap Operation.ontology?)[e.number]? = some e.ontology) ∧
    ∀ before t after, turns = before ++ t :: after →
      t.Proper behave (Turn.edition o before) (Turn.registered behave [] before)
        (before.flatMap Turn.events) := by
  intro turns
  have hops : turns.map Turn.operation = ops := Holder.operations_run _ _ _
  have hproper : ∀ before t after, turns = before ++ t :: after →
      t.Proper behave (Turn.edition o before) (Turn.registered behave [] before)
        (before.flatMap Turn.events) := by
    intro before t after hrun
    simpa [Holder.ofOntology, Turn.edition] using Holder.proper_of_run hrun
  refine ⟨hops, Holder.run_prefix _ _ _, ?_, hproper⟩
  intro t ht e hshows
  obtain ⟨before, after, hrun⟩ := List.append_of_mem ht
  have hinstalled : ops.filterMap Operation.ontology? =
      Turn.installed before ++ Turn.installed (t :: after) := by
    rw [← hops, ← Turn.installed_eq, hrun, Turn.installed, List.filterMap_append]
    rfl
  rw [hinstalled]
  rcases (hproper before t after hrun).shows hshows with rfl | ⟨o', ho, rfl⟩
  · exact Turn.getElem?_edition o before _
  · have hnext : Turn.installed (t :: after) = o' :: Turn.installed after := by
      simp [Turn.installed, ho, Operation.ontology?]
    simp [hnext, Turn.edition, Turn.editionAfter]

/-- Listener 0 reads and registers listener 1 whenever it is told. The first replacement tells 0
alone, and the second both. -/
theorem holder_runs_reentrant :
    let behave : Holder.Behaviour Nat := fun _ l _ => if l = 0 then [.read, .register 1] else []
    let o : Ontology := ⟨[], []⟩
    let before : List (Turn Nat) :=
      [⟨.listen 0, none, []⟩, ⟨.replace o, some ⟨0, o⟩, [.told 0 ⟨1, o⟩, .read 0 ⟨1, o⟩]⟩,
       ⟨.current, some ⟨1, o⟩, []⟩]
    let last : Turn Nat :=
      ⟨.replace o, some ⟨1, o⟩, [.told 0 ⟨2, o⟩, .read 0 ⟨2, o⟩, .told 1 ⟨2, o⟩]⟩
    Holder.run behave (.ofOntology o) [] [.listen 0, .replace o, .current, .replace o] =
        before ++ [last] ∧
      Turn.edition o before = ⟨1, o⟩ ∧ Turn.registered behave [] before = [0, 1] ∧
      last.Proper behave ⟨1, o⟩ [0, 1] [.told 0 ⟨1, o⟩, .read 0 ⟨1, o⟩] := by
  intro behave o before last
  have hrun : Holder.run behave (.ofOntology o) [] [.listen 0, .replace o, .current, .replace o] =
      before ++ [last] := rfl
  exact ⟨hrun, rfl, rfl, (holder_runs behave o _).2.2.2 before last [] hrun⟩

end OntoQuery
