import OntoQuery.Ontology.Basic

/-!
# The current ontology

A holder has one ontology at a time and listeners that are told of each new one. Whoever took an
ontology keeps it when another is installed; an `Edition` is an ontology with its number in the
order of installation, which tells apart two editions with the same content.

A listener may read the current edition and register further listeners while it is told. What it
does is given by a function from all that happened so far, so listeners can act in any way. Those
registered while an edition is announced are told from the next one on.
-/

namespace OntoQuery

/-- An ontology as installed in a holder. -/
structure Edition where
  number : Nat
  ontology : Ontology
  deriving DecidableEq, Repr

/-- The current edition and the listeners, in order of registration. -/
structure Holder (ι : Type) where
  current : Edition
  listeners : List ι
  deriving DecidableEq, Repr

/-- What a listener asks of the holder while it is told of an edition. -/
inductive Request (ι : Type) where
  | read
  | register (listener : ι)
  deriving DecidableEq, Repr

/-- What happens while an edition is announced. -/
inductive Event (ι : Type) where
  /-- A listener is told of an edition. -/
  | told (listener : ι) (edition : Edition)
  /-- A listener reads the current edition. -/
  | read (listener : ι) (edition : Edition)
  deriving DecidableEq, Repr

namespace Holder
variable {ι : Type}

/-- What each listener asks when told of an edition, given all events so far. -/
abbrev Behaviour (ι : Type) := List (Event ι) → ι → Edition → List (Request ι)

def ofOntology (o : Ontology) : Holder ι :=
  { current := ⟨0, o⟩, listeners := [] }

def listen (h : Holder ι) (listener : ι) : Holder ι :=
  { h with listeners := h.listeners ++ [listener] }

/-- Serves the requests of a listener in turn. -/
def serve (listener : ι) : List (Request ι) → Holder ι × List (Event ι) → Holder ι × List (Event ι)
  | [], state => state
  | .read :: requests, (h, events) =>
    serve listener requests (h, events ++ [.read listener h.current])
  | .register other :: requests, (h, events) => serve listener requests (h.listen other, events)

/-- Tells listeners of an edition, each after the one before is done. -/
def announce (behave : Behaviour ι) (edition : Edition) :
    List ι → Holder ι × List (Event ι) → Holder ι × List (Event ι)
  | [], state => state
  | listener :: listeners, (h, events) =>
    let events := events ++ [.told listener edition]
    announce behave edition listeners
      (serve listener (behave events listener edition) (h, events))

/-- Installs an ontology, then tells the listeners registered so far. Gives the previous edition,
the holder afterwards, and all events with those so far. -/
def replace (behave : Behaviour ι) (h : Holder ι) (events : List (Event ι)) (o : Ontology) :
    Edition × Holder ι × List (Event ι) :=
  let next : Edition := ⟨h.current.number + 1, o⟩
  (h.current, announce behave next h.listeners ({ h with current := next }, events))

end Holder

end OntoQuery
