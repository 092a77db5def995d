/-!
# Items with distinct keys

Two ways to leave one item for each key: the later item takes the place of the earlier one
(`latest`), or the first item stays and the later ones are left out (`earliest`).
-/

namespace AtomicStyle

variable {α κ : Type} [BEq κ]

/-- Adds an item at the end; earlier items with its key go. -/
def renew (key : α → κ) (items : List α) (item : α) : List α :=
  items.filter (fun other => key other != key item) ++ [item]

/-- The last item of each key, in the order of these last items. -/
def latest (key : α → κ) (items : List α) : List α :=
  items.foldl (renew key) []

/-- Adds an item at the end, unless an item with its key is there. -/
def addNew (key : α → κ) (items : List α) (item : α) : List α :=
  if items.any fun other => key other == key item then items else items ++ [item]

/-- The first item of each key, in the order of these first items. -/
def earliest (key : α → κ) (items : List α) : List α :=
  items.foldl (addNew key) []

/-! ## Laws -/

@[simp] theorem latest_nil (key : α → κ) : latest key [] = [] := rfl

theorem latest_append_singleton (key : α → κ) (items : List α) (item : α) :
    latest key (items ++ [item]) = renew key (latest key items) item := by
  simp [latest, List.foldl_append]

@[simp] theorem earliest_nil (key : α → κ) : earliest key [] = [] := rfl

theorem earliest_append_singleton (key : α → κ) (items : List α) (item : α) :
    earliest key (items ++ [item]) = addNew key (earliest key items) item := by
  simp [earliest, List.foldl_append]

variable [LawfulBEq κ]

theorem mem_renew {key : α → κ} {items : List α} {item x : α} :
    x ∈ renew key items item ↔ (x ∈ items ∧ key x ≠ key item) ∨ x = item := by
  simp [renew]

theorem nodup_map_renew {key : α → κ} {items : List α} {item : α}
    (h : (items.map key).Nodup) : ((renew key items item).map key).Nodup := by
  rw [renew, List.map_append, List.nodup_append]
  refine ⟨h.sublist (List.filter_sublist.map key), by simp, ?_⟩
  intro a ha b hb
  obtain ⟨x, hx, rfl⟩ := List.mem_map.mp ha
  obtain rfl : b = key item := by simpa using hb
  simpa using (List.mem_filter.mp hx).2

theorem nodup_map_foldl_renew {key : α → κ} {items kept : List α} (h : (kept.map key).Nodup) :
    ((items.foldl (renew key) kept).map key).Nodup := by
  induction items generalizing kept with
  | nil => exact h
  | cons item rest ih => exact ih (nodup_map_renew h)

/-- No two of the items that are left have one key. -/
theorem nodup_map_latest (key : α → κ) (items : List α) : ((latest key items).map key).Nodup :=
  nodup_map_foldl_renew (by simp)

theorem nodup_map_addNew {key : α → κ} {items : List α} {item : α}
    (h : (items.map key).Nodup) : ((addNew key items item).map key).Nodup := by
  unfold addNew
  split
  · exact h
  · next hn =>
    rw [List.map_append, List.nodup_append]
    refine ⟨h, by simp, ?_⟩
    intro a ha b hb hab
    obtain ⟨x, hx, rfl⟩ := List.mem_map.mp ha
    obtain rfl : b = key item := by simpa using hb
    exact hn (List.any_eq_true.mpr ⟨x, hx, by simpa using hab⟩)

theorem nodup_map_foldl_addNew {key : α → κ} {items kept : List α} (h : (kept.map key).Nodup) :
    ((items.foldl (addNew key) kept).map key).Nodup := by
  induction items generalizing kept with
  | nil => exact h
  | cons item rest ih => exact ih (nodup_map_addNew h)

/-- No two of the items that are kept have one key. -/
theorem nodup_map_earliest (key : α → κ) (items : List α) :
    ((earliest key items).map key).Nodup :=
  nodup_map_foldl_addNew (by simp)

end AtomicStyle
