/-!
# Maps that keep the order of insertion

A map is the list of its entries in the order in which their keys first came. Inserting under a
known key changes the value and keeps the place; a new key goes to the end.
-/

namespace OntoQuery

/-- A map that lists its entries in order of first insertion. -/
structure OrderedMap (κ α : Type) where
  entries : List (κ × α) := []
  deriving DecidableEq, Repr

namespace OrderedMap
variable {κ α β : Type} [DecidableEq κ]

def empty : OrderedMap κ α := ⟨[]⟩

def find? (m : OrderedMap κ α) (k : κ) : Option α :=
  m.entries.lookup k

def contains (m : OrderedMap κ α) (k : κ) : Bool :=
  (m.find? k).isSome

def keys (m : OrderedMap κ α) : List κ :=
  m.entries.map Prod.fst

def size (m : OrderedMap κ α) : Nat :=
  m.entries.length

/-- The entry list with `k` bound to `a`: in the place of `k` if it is bound, else at the end. -/
def put (k : κ) (a : α) : List (κ × α) → List (κ × α)
  | [] => [(k, a)]
  | (k', b) :: es => if k = k' then (k, a) :: es else (k', b) :: put k a es

def insert (m : OrderedMap κ α) (k : κ) (a : α) : OrderedMap κ α :=
  ⟨put k a m.entries⟩

/-- Binds `k` at the end unless it is bound already. -/
def insertNew (m : OrderedMap κ α) (k : κ) (a : α) : OrderedMap κ α :=
  if m.contains k then m else ⟨m.entries ++ [(k, a)]⟩

/-- Inserts the pairs one after the other, so that the last of equal keys gives the value. -/
def ofList (pairs : List (κ × α)) : OrderedMap κ α :=
  pairs.foldl (fun m (k, a) => m.insert k a) empty

theorem lookup_put (k k' : κ) (a : α) (es : List (κ × α)) :
    (put k a es).lookup k' = if k' = k then some a else es.lookup k' := by
  induction es with
  | nil =>
    by_cases h : k' = k
    · simp [put, h]
    · simp [put, List.lookup_cons, h, show (k' == k) = false by simpa using h]
  | cons e es ih =>
    obtain ⟨x, b⟩ := e
    by_cases hx : k = x
    · subst hx
      by_cases h : k' = k
      · simp [put, h]
      · simp [put, List.lookup_cons, h, show (k' == k) = false by simpa using h]
    · by_cases h : k' = x
      · subst h
        simp [put, hx, Ne.symm hx]
      · simp [put, hx, List.lookup_cons, show (k' == x) = false by simpa using h, ih]

@[simp] theorem find?_empty (k : κ) : (empty : OrderedMap κ α).find? k = none := rfl

@[simp] theorem find?_insert (m : OrderedMap κ α) (k k' : κ) (a : α) :
    (m.insert k a).find? k' = if k' = k then some a else m.find? k' :=
  lookup_put k k' a m.entries

/-- A map keeps its keys in place when a bound one is bound anew, and takes a new one at the end. -/
theorem keys_insert (m : OrderedMap κ α) (k : κ) (a : α) :
    (m.insert k a).keys = if k ∈ m.keys then m.keys else m.keys ++ [k] := by
  obtain ⟨es⟩ := m
  simp only [insert, keys]
  induction es with
  | nil => simp [put]
  | cons e es ih =>
    obtain ⟨x, b⟩ := e
    by_cases hx : k = x
    · simp [put, hx]
    · simp only [put, hx, if_false, List.map_cons, ih, List.mem_cons, false_or]
      by_cases h : k ∈ es.map Prod.fst
      · simp only [h, if_true]
      · simp only [h, if_false, List.cons_append]

end OrderedMap

end OntoQuery
