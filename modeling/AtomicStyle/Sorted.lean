import AtomicStyle.Ordered

/-!
# Entries in ascending order

Keyed entries that stand in the order of their keys, by code point.
-/

namespace AtomicStyle

/-- A list of keyed entries with ascending keys. -/
abbrev Sorted (α : Type) := List (String × α)

namespace Sorted

variable {α : Type}

/-- Writes an entry; one with the same key gives way. -/
def put (key : String) (value : α) : Sorted α → Sorted α
  | [] => [(key, value)]
  | entry :: rest =>
    if key < entry.1 then (key, value) :: entry :: rest
    else if key = entry.1 then (key, value) :: rest
    else entry :: put key value rest

/-- The entries in ascending order; of several with one key the last. -/
def ofList (entries : List (String × α)) : Sorted α :=
  entries.foldl (fun sorted entry => sorted.put entry.1 entry.2) []

/-- What was written is there, and every other entry is as it was. -/
theorem lookup_put (entries : Sorted α) (key other : String) (value : α) :
    (entries.put key value).lookup other =
      if other = key then some value else entries.lookup other := by
  induction entries with
  | nil => simp [put, lookup_cons_eq_ite]
  | cons entry rest ih =>
    obtain ⟨k, v⟩ := entry
    by_cases hlt : key < k
    · simp [put, hlt, lookup_cons_eq_ite]
    · by_cases heq : key = k
      · subst heq
        by_cases ho : other = key <;> simp [put, lookup_cons_eq_ite, ho]
      · by_cases ho : other = k
        · subst ho
          simp [put, hlt, heq, lookup_cons_eq_ite, Ne.symm heq]
        · simp [put, hlt, heq, lookup_cons_eq_ite, ho, ih]

end Sorted

end AtomicStyle
