/-!
# Entries in order

Keyed entries that keep the order in which their keys were first written: the bindings of a unit,
the members of an object, the arguments of a call.
-/

namespace AtomicStyle

/-- Looking up a key takes the first entry with that key. -/
theorem lookup_cons_eq_ite {κ β : Type} [DecidableEq κ] (key : κ) (entry : κ × β)
    (rest : List (κ × β)) :
    (entry :: rest).lookup key = if key = entry.1 then some entry.2 else rest.lookup key := by
  obtain ⟨k, v⟩ := entry
  by_cases h : key = k
  · simp [h]
  · simp [List.lookup_cons, beq_eq_false_iff_ne.mpr h, h]

/-- A list of keyed entries whose order is the order in which the keys were first written. -/
abbrev Ordered (α : Type) := List (String × α)

namespace Ordered

variable {α : Type}

/-- The entry under a key. -/
def get? (entries : Ordered α) (key : String) : Option α :=
  entries.lookup key

/-- Whether there is an entry under a key. -/
def has (entries : Ordered α) (key : String) : Bool :=
  (entries.get? key).isSome

/-- Writes an entry.  A key that is present keeps its place; a new key goes to the end. -/
def put : Ordered α → String → α → Ordered α
  | [], key, value => [(key, value)]
  | entry :: rest, key, value =>
    if entry.1 == key then (key, value) :: rest else entry :: put rest key value

/-- Writes several entries in turn. -/
def putAll (entries : Ordered α) (more : List (String × α)) : Ordered α :=
  more.foldl (fun acc entry => acc.put entry.1 entry.2) entries

@[simp] theorem get?_nil (key : String) : get? ([] : Ordered α) key = none := rfl

@[simp] theorem get?_cons (entry : String × α) (rest : Ordered α) (key : String) :
    get? (entry :: rest) key = if key = entry.1 then some entry.2 else get? rest key :=
  lookup_cons_eq_ite key entry rest

/-- What was written is there, and every other entry is as it was. -/
theorem get?_put (entries : Ordered α) (key other : String) (value : α) :
    (entries.put key value).get? other = if other = key then some value else entries.get? other := by
  induction entries with
  | nil => simp [put]
  | cons entry rest ih =>
    by_cases hk : entry.1 = key
    · by_cases h : other = key <;> simp [put, hk, h]
    · by_cases h : other = entry.1
      · simp [put, hk, h]
      · simp [put, hk, h, ih]

/-- The keys after a write: a new key goes to the end, a present key moves nothing. -/
theorem map_fst_put (entries : Ordered α) (key : String) (value : α) :
    (entries.put key value).map Prod.fst =
      if key ∈ entries.map Prod.fst then entries.map Prod.fst
      else entries.map Prod.fst ++ [key] := by
  induction entries with
  | nil => simp [put]
  | cons entry rest ih =>
    by_cases hk : entry.1 = key
    · simp [put, hk]
    · by_cases hm : key ∈ rest.map Prod.fst
      · simp [put, hk, ih, hm]
      · simp [put, hk, ih, hm, Ne.symm hk]

end Ordered

end AtomicStyle
