import AtomicStyle.Distinct
import Mathlib.Data.List.Induction
import Mathlib.Data.List.Nodup
import Mathlib.Data.List.Perm.Basic

/-!
# Laws of distinct items

`latest` and `earliest` are folds.  Seen from the front, `latest` keeps an item iff no later item has
its key (`latest_cons`), and `earliest` keeps one iff no earlier item has its key.

Results:
1. `latest_append`, `latest_append_congr`: what is left of two lists in a row depends only on what
   is left of each of them, so overriding may be done in stages.
2. `latest_map`, `latest_congr`: the items that are left depend only on which items share a key.
3. `length_earliest_eq_iff`: `earliest` keeps everything iff the keys are distinct.
4. `earliest_eq_filter_zipIdx`, `latest_eq_filter_zipIdx`, `filter_earliest`, `filter_latest`: what is
   kept, told by places and by keys.
5. `pairwise_eraseDups_filterMap`: what items show stands in the order in which it is first met.
6. `perm_flatMap_filter`: gathering items key by key loses nothing.
-/

namespace AtomicStyle

variable {α β κ ι : Type} [BEq κ] [LawfulBEq κ] [BEq ι] [LawfulBEq ι]

/-! ## The latest items -/

/-- Items that are in place already stay iff no item of the list has their key. -/
theorem foldl_renew (key : α → κ) (items kept : List α) :
    items.foldl (renew key) kept =
      kept.filter (fun x => key x ∉ items.map key) ++ latest key items := by
  induction items generalizing kept with
  | nil => simp
  | cons item rest ih =>
    have hfirst : latest key (item :: rest) = rest.foldl (renew key) [item] := rfl
    have hsame : (renew key kept item).filter (fun x => key x ∉ rest.map key) =
        kept.filter (fun x => key x ∉ (item :: rest).map key) ++
          [item].filter (fun x => key x ∉ rest.map key) := by
      rw [renew, List.filter_append, List.filter_filter]
      congr 1
      apply List.filter_congr
      intro x _
      rw [Bool.eq_iff_iff]
      simp only [Bool.and_eq_true, decide_eq_true_eq, bne_iff_ne, List.map_cons, List.mem_cons,
        not_or]
      exact and_comm
    rw [List.foldl_cons, ih, hfirst, ih, hsame, List.append_assoc]

/-- An item is left iff no later item has its key. -/
theorem latest_cons (key : α → κ) (item : α) (rest : List α) :
    latest key (item :: rest) =
      if key item ∈ rest.map key then latest key rest else item :: latest key rest := by
  have hfirst : latest key (item :: rest) = rest.foldl (renew key) [item] := rfl
  rw [hfirst, foldl_renew]
  by_cases h : key item ∈ rest.map key
  · rw [if_pos h, List.filter_cons_of_neg (by simpa using h)]
    rfl
  · rw [if_neg h, List.filter_cons_of_pos (by simpa using h)]
    rfl

/-- Of two lists in a row, the second one is left as it would be alone. -/
theorem latest_append (key : α → κ) (items more : List α) :
    latest key (items ++ more) =
      (latest key items).filter (fun x => key x ∉ more.map key) ++ latest key more := by
  rw [latest, List.foldl_append, foldl_renew]
  rfl

theorem latest_sublist (key : α → κ) (items : List α) : (latest key items).Sublist items := by
  induction items with
  | nil => exact List.Sublist.refl _
  | cons item rest ih =>
    rw [latest_cons]
    split
    · exact ih.cons item
    · exact ih.cons_cons item

/-- Every key is left with one item. -/
theorem mem_map_latest {key : α → κ} {items : List α} {k : κ} :
    k ∈ (latest key items).map key ↔ k ∈ items.map key := by
  induction items with
  | nil => exact Iff.rfl
  | cons item rest ih =>
    rw [latest_cons]
    split
    · next h =>
      rw [ih, List.map_cons, List.mem_cons]
      constructor
      · exact Or.inr
      · rintro (rfl | hk)
        · exact h
        · exact hk
    · rw [List.map_cons, List.map_cons, List.mem_cons, List.mem_cons, ih]

theorem latest_of_nodup {key : α → κ} {items : List α} (h : (items.map key).Nodup) :
    latest key items = items := by
  induction items with
  | nil => rfl
  | cons item rest ih =>
    obtain ⟨hnot, hrest⟩ := List.nodup_cons.mp h
    rw [latest_cons, if_neg hnot, ih hrest]

@[simp] theorem latest_latest (key : α → κ) (items : List α) :
    latest key (latest key items) = latest key items :=
  latest_of_nodup (nodup_map_latest key items)

/-- Overriding in stages: what is left of each list decides what is left of both in a row. -/
theorem latest_append_congr {key : α → κ} {items items' more more' : List α}
    (h : latest key items = latest key items') (h' : latest key more = latest key more') :
    latest key (items ++ more) = latest key (items' ++ more') := by
  have hkeys : ∀ k, k ∈ more.map key ↔ k ∈ more'.map key := by
    intro k
    rw [← mem_map_latest, h', mem_map_latest]
  rw [latest_append, latest_append, h, h']
  congr 1
  apply List.filter_congr
  intro x _
  simp only [hkeys]

/-- Overriding sees an item only through its key. -/
theorem latest_map (key : β → κ) (f : α → β) (items : List α) :
    latest key (items.map f) = (latest (fun x => key (f x)) items).map f := by
  induction items with
  | nil => rfl
  | cons item rest ih =>
    have hkeys : (rest.map f).map key = rest.map fun x => key (f x) := List.map_map
    rw [List.map_cons, latest_cons, latest_cons, ih, hkeys]
    by_cases h : key (f item) ∈ rest.map fun x => key (f x)
    · rw [if_pos h, if_pos h]
    · rw [if_neg h, if_neg h, List.map_cons]

/-- Keys that tell the items apart in the same way leave the same items. -/
theorem latest_congr {key : α → κ} {key' : α → ι} {items : List α}
    (h : ∀ x ∈ items, ∀ y ∈ items, key x = key y ↔ key' x = key' y) :
    latest key items = latest key' items := by
  induction items with
  | nil => rfl
  | cons item rest ih =>
    have hrest := ih fun x hx y hy => h x (List.mem_cons_of_mem _ hx) y (List.mem_cons_of_mem _ hy)
    have hmem : key item ∈ rest.map key ↔ key' item ∈ rest.map key' := by
      simp only [List.mem_map]
      constructor
      · rintro ⟨y, hy, he⟩
        exact ⟨y, hy, (h y (List.mem_cons_of_mem _ hy) item List.mem_cons_self).mp he⟩
      · rintro ⟨y, hy, he⟩
        exact ⟨y, hy, (h y (List.mem_cons_of_mem _ hy) item List.mem_cons_self).mpr he⟩
    rw [latest_cons, latest_cons, hrest]
    simp only [hmem]

/-! ## The earliest items -/

theorem addNew_eq (key : α → κ) (items : List α) (item : α) :
    addNew key items item = if key item ∈ items.map key then items else items ++ [item] := by
  unfold addNew
  congr 1
  simp only [List.any_eq_true, beq_iff_eq, List.mem_map]

theorem earliest_sublist (key : α → κ) (items : List α) : (earliest key items).Sublist items := by
  induction items using List.reverseRecOn with
  | nil => exact List.Sublist.refl _
  | append_singleton items item ih =>
    rw [earliest_append_singleton, addNew_eq]
    split
    · exact ih.trans (List.sublist_append_left _ _)
    · exact ih.append (List.Sublist.refl _)

/-- Every key is kept with one item. -/
theorem mem_map_earliest {key : α → κ} {items : List α} {k : κ} :
    k ∈ (earliest key items).map key ↔ k ∈ items.map key := by
  induction items using List.reverseRecOn with
  | nil => exact Iff.rfl
  | append_singleton items item ih =>
    rw [earliest_append_singleton, addNew_eq]
    split
    · next h =>
      rw [ih, List.map_append, List.mem_append]
      constructor
      · exact Or.inl
      · rintro (hk | hk)
        · exact hk
        · rw [List.map_singleton, List.mem_singleton] at hk
          subst hk
          exact ih.mp h
    · rw [List.map_append, List.map_append, List.mem_append, List.mem_append, ih]

theorem earliest_of_nodup {key : α → κ} {items : List α} (h : (items.map key).Nodup) :
    earliest key items = items := by
  induction items using List.reverseRecOn with
  | nil => rfl
  | append_singleton items item ih =>
    rw [List.map_append, List.nodup_append] at h
    obtain ⟨hitems, -, hdisjoint⟩ := h
    have hnot : key item ∉ items.map key := fun hm => hdisjoint _ hm _ (by simp) rfl
    rw [earliest_append_singleton, ih hitems, addNew_eq, if_neg hnot]

/-- Nothing is left out iff the keys are distinct. -/
theorem length_earliest_eq_iff (key : α → κ) (items : List α) :
    (earliest key items).length = items.length ↔ (items.map key).Nodup := by
  constructor
  · intro h
    rw [← (earliest_sublist key items).eq_of_length h]
    exact nodup_map_earliest key items
  · intro h
    rw [earliest_of_nodup h]

/-! ## First encounters -/

theorem eraseDups_append_singleton (keys : List κ) (k : κ) :
    (keys ++ [k]).eraseDups = if k ∈ keys then keys.eraseDups else keys.eraseDups ++ [k] := by
  have hone : [k].eraseDups = [k] := rfl
  rw [List.eraseDups_append]
  by_cases h : k ∈ keys
  · simp [List.removeAll, h]
  · simp [List.removeAll, h, hone]

/-- What items that have the same keys agree on is first met with the items that are kept. -/
theorem eraseDups_filterMap_earliest {γ : Type} [DecidableEq γ] {key : α → κ} {view : α → Option γ}
    (hview : ∀ x y, key x = key y → view x = view y) (items : List α) :
    ((earliest key items).filterMap view).eraseDups = (items.filterMap view).eraseDups := by
  induction items using List.reverseRecOn with
  | nil => rfl
  | append_singleton items item ih =>
    rw [earliest_append_singleton, addNew_eq, List.filterMap_append]
    simp only [mem_map_earliest]
    cases hitem : view item with
    | none =>
      have hnone : [item].filterMap view = [] := by simp [hitem]
      rw [hnone, List.append_nil, ← ih]
      split
      · rfl
      · rw [List.filterMap_append, hnone, List.append_nil]
    | some seen =>
      have hone : [item].filterMap view = [seen] := by simp [hitem]
      split
      · next h =>
        obtain ⟨earlier, hearlier, hkey⟩ := List.mem_map.mp h
        have hseen : seen ∈ items.filterMap view :=
          List.mem_filterMap.mpr ⟨earlier, hearlier, (hview _ _ hkey).trans hitem⟩
        rw [hone, eraseDups_append_singleton, if_pos hseen, ih]
      · have hsame : seen ∈ (earliest key items).filterMap view ↔ seen ∈ items.filterMap view := by
          rw [← List.mem_eraseDups, ih, List.mem_eraseDups]
        rw [List.filterMap_append, hone, eraseDups_append_singleton, eraseDups_append_singleton, ih]
        simp only [hsame]

theorem map_earliest (key : α → κ) (items : List α) :
    (earliest key items).map key = (items.map key).eraseDups := by
  induction items using List.reverseRecOn with
  | nil => rfl
  | append_singleton items item ih =>
    rw [earliest_append_singleton, addNew_eq, List.map_append, List.map_singleton,
      eraseDups_append_singleton, ← ih]
    simp only [mem_map_earliest]
    split
    · rfl
    · rw [List.map_append, List.map_singleton]

section Encounter

variable [DecidableEq κ]

/-- The first item of each key, told by their places: the items before it have other keys. -/
theorem earliest_eq_filter_zipIdx (key : α → κ) (items : List α) :
    earliest key items = (items.zipIdx.filter fun entry =>
      key entry.1 ∉ (items.take entry.2).map key).map Prod.fst := by
  induction items using List.reverseRecOn with
  | nil => rfl
  | append_singleton items item ih =>
    have hbefore : items.zipIdx.filter (fun entry =>
        key entry.1 ∉ ((items ++ [item]).take entry.2).map key) =
        items.zipIdx.filter fun entry => key entry.1 ∉ (items.take entry.2).map key := by
      apply List.filter_congr
      rintro ⟨x, i⟩ hmem
      have hi : i < items.length := by simpa using (List.mem_zipIdx hmem).2.1
      rw [List.take_append_of_le_length (Nat.le_of_lt hi)]
    have hlast : [item].zipIdx items.length = [(item, items.length)] := rfl
    rw [earliest_append_singleton, addNew_eq, List.zipIdx_append, List.filter_append,
      List.map_append, Nat.zero_add, hbefore, ← ih, hlast]
    simp only [mem_map_earliest]
    by_cases h : key item ∈ items.map key
    · rw [if_pos h, List.filter_cons_of_neg]
      · exact (List.append_nil _).symm
      · simpa using h
    · rw [if_neg h, List.filter_cons_of_pos]
      · rfl
      · simpa using h

/-- Of the items with a given key, the first one is kept. -/
theorem filter_earliest (key : α → κ) (items : List α) (k : κ) :
    (earliest key items).filter (key · = k) = (items.find? (key · = k)).toList := by
  induction items using List.reverseRecOn with
  | nil => rfl
  | append_singleton items item ih =>
    rw [earliest_append_singleton, addNew_eq, List.find?_append]
    simp only [mem_map_earliest]
    by_cases hk : key item = k
    · subst hk
      split
      · next h =>
        obtain ⟨first, hfirst⟩ : ∃ first, items.find? (key · = key item) = some first := by
          rw [← Option.isSome_iff_exists, List.find?_isSome]
          simpa using h
        rw [ih, hfirst]
        rfl
      · next h =>
        have hnone : items.find? (key · = key item) = none := by
          rw [List.find?_eq_none]
          simpa using h
        rw [List.filter_append, ih, hnone]
        simp
    · have hnone : [item].find? (key · = k) = none := by simp [hk]
      rw [hnone, Option.or_none, ← ih]
      split
      · rfl
      · simp [List.filter_append, hk]

/-- Of the items with a given key, the last one is left. -/
theorem filter_latest (key : α → κ) (items : List α) (k : κ) :
    (latest key items).filter (key · = k) = (items.filter (key · = k)).getLast?.toList := by
  induction items using List.reverseRecOn with
  | nil => rfl
  | append_singleton items item ih =>
    rw [latest_append_singleton, renew, List.filter_append, List.filter_append, List.filter_filter]
    by_cases hk : key item = k
    · have hnone : (latest key items).filter
          (fun x => decide (key x = k) && (key x != key item)) = [] := by
        rw [List.filter_eq_nil_iff]
        intro x _
        simp [hk]
      rw [hnone, List.filter_cons_of_pos (by simpa using hk), List.filter_nil, List.nil_append,
        List.getLast?_concat]
      rfl
    · have hsame : (latest key items).filter
          (fun x => decide (key x = k) && (key x != key item)) =
            (latest key items).filter (key · = k) := by
        apply List.filter_congr
        intro x _
        by_cases hx : key x = k
        · simp [hx, Ne.symm hk]
        · simp [hx]
      rw [hsame, ih, List.filter_cons_of_neg (by simpa using hk), List.filter_nil, List.append_nil,
        List.append_nil]

/-- The last item of each key, told by their places: the items after it have other keys. -/
theorem latest_eq_filter_zipIdx (key : α → κ) (items : List α) :
    latest key items = (items.zipIdx.filter fun entry =>
      key entry.1 ∉ (items.drop (entry.2 + 1)).map key).map Prod.fst := by
  induction items with
  | nil => rfl
  | cons item rest ih =>
    have hrest : ((rest.zipIdx.map (Prod.map id (· + 1))).filter fun entry =>
        key entry.1 ∉ ((item :: rest).drop (entry.2 + 1)).map key).map Prod.fst =
          latest key rest := by
      rw [List.filter_map, List.map_map, ih]
      rfl
    rw [latest_cons, List.zipIdx_cons']
    by_cases h : key item ∈ rest.map key
    · rw [if_pos h, List.filter_cons_of_neg (by simpa using h), hrest]
    · rw [if_neg h, List.filter_cons_of_pos (by simpa using h), List.map_cons, hrest]

/-- What items show stands in the order in which it is first met. -/
theorem pairwise_eraseDups_filterMap (view : α → Option κ) (items : List α) :
    (items.filterMap view).eraseDups.Pairwise fun a b =>
      items.findIdx (view · = some a) < items.findIdx (view · = some b) := by
  induction items generalizing view with
  | nil => exact List.Pairwise.nil
  | cons item rest ih =>
    -- an item moves the places of what it does not show by one
    have hnext : ∀ k, view item ≠ some k →
        (item :: rest).findIdx (view · = some k) = rest.findIdx (view · = some k) + 1 := by
      intro k hk
      simp [List.findIdx_cons, hk]
    cases hitem : view item with
    | none =>
      rw [List.filterMap_cons_none hitem]
      refine (ih view).imp fun {a b} hab => ?_
      rw [hnext a (by simp [hitem]), hnext b (by simp [hitem])]
      exact Nat.succ_lt_succ hab
    | some seen =>
      -- the rest is met as if it did not show what this item shows
      have hrest : (rest.filterMap view).filter (fun k => !k == seen) =
          rest.filterMap fun x => (view x).filter (fun k => !k == seen) := by
        rw [List.filter_filterMap]
      have hview : ∀ k, k ≠ seen → ∀ x,
          ((view x).filter (fun k => !k == seen) = some k ↔ view x = some k) := by
        intro k hk x
        rw [Option.filter_eq_some_iff]
        simp [hk]
      rw [List.filterMap_cons_some hitem, List.eraseDups_cons, hrest, List.pairwise_cons]
      have hne : ∀ k ∈ (rest.filterMap fun x => (view x).filter (fun k => !k == seen)).eraseDups,
          k ≠ seen := by
        intro k hk
        rw [List.mem_eraseDups, ← hrest] at hk
        simpa using (List.mem_filter.mp hk).2
      constructor
      · intro k hk
        rw [hnext k (by simp [hitem, Ne.symm (hne k hk)])]
        simp [List.findIdx_cons, hitem]
      · refine (ih fun x => (view x).filter (fun k => !k == seen)).imp_of_mem ?_
        intro a b ha hb hab
        rw [hnext a (by simp [hitem, Ne.symm (hne a ha)]),
          hnext b (by simp [hitem, Ne.symm (hne b hb)])]
        simp only [hview a (hne a ha), hview b (hne b hb)] at hab
        exact Nat.succ_lt_succ hab

end Encounter

/-! ## Items by key -/

section Gathering

variable {α κ : Type} [DecidableEq κ]

/-- An item belongs to one key only. -/
theorem flatMap_ite_singleton {keys : List κ} (hnodup : keys.Nodup) {key : κ} (hkey : key ∈ keys)
    (item : α) : keys.flatMap (fun k => if key = k then [item] else []) = [item] := by
  induction keys with
  | nil => exact absurd hkey List.not_mem_nil
  | cons k rest ih =>
    obtain ⟨hk, hrest⟩ := List.nodup_cons.mp hnodup
    rw [List.flatMap_cons]
    by_cases heq : key = k
    · subst heq
      have hnone : rest.flatMap (fun k => if key = k then [item] else []) = [] := by
        rw [List.flatMap_eq_nil_iff]
        intro other hother
        rw [if_neg]
        rintro rfl
        exact hk hother
      rw [if_pos rfl, hnone, List.append_nil]
    · rw [if_neg heq, List.nil_append]
      exact ih hrest ((List.mem_cons.mp hkey).resolve_left heq)

/-- Items that are gathered key by key are the same items. -/
theorem perm_flatMap_filter {key : α → κ} {keys : List κ} (hnodup : keys.Nodup) {items : List α}
    (hkeys : ∀ item ∈ items, key item ∈ keys) :
    (keys.flatMap fun k => items.filter (key · = k)).Perm items := by
  induction items with
  | nil =>
    have hnone : (keys.flatMap fun k => ([] : List α).filter (key · = k)) = [] :=
      List.flatMap_eq_nil_iff.mpr fun _ _ => rfl
    rw [hnone]
  | cons item rest ih =>
    have hrest := ih fun other hother => hkeys other (List.mem_cons_of_mem _ hother)
    have hsplit : ∀ k, (item :: rest).filter (key · = k) =
        (if key item = k then [item] else []) ++ rest.filter (key · = k) := by
      intro k
      by_cases hk : key item = k
      · simp [hk]
      · simp [hk]
    simp only [hsplit]
    have hperm := (List.flatMap_append_perm keys (fun k => if key item = k then [item] else [])
      fun k => rest.filter (key · = k)).symm
    rw [flatMap_ite_singleton hnodup (hkeys item List.mem_cons_self)] at hperm
    exact hperm.trans (hrest.cons item)

end Gathering

/-! ## The order of two items -/

/-- An item stands before another one. -/
def Precedes {α : Type} (items : List α) (a b : α) : Prop :=
  [a, b].Sublist items

instance {α : Type} [DecidableEq α] (items : List α) (a b : α) : Decidable (Precedes items a b) :=
  inferInstanceAs (Decidable ([a, b].Sublist items))

section Precedes

variable {α : Type} {items : List α} {a b : α}

theorem pairwise_iff_precedes {r : α → α → Prop} :
    items.Pairwise r ↔ ∀ a b, Precedes items a b → r a b :=
  List.pairwise_iff_forall_sublist.trans ⟨fun h _ _ => h, fun h _ _ => h _ _⟩

theorem precedes_or_precedes (ha : a ∈ items) (hb : b ∈ items) (hne : a ≠ b) :
    Precedes items a b ∨ Precedes items b a := by
  obtain ⟨before, after, rfl⟩ := List.append_of_mem ha
  rcases List.mem_append.mp hb with hb | hb
  · exact Or.inr ((List.singleton_sublist.mpr hb).append
      (List.singleton_sublist.mpr List.mem_cons_self))
  · have hafter : b ∈ after := (List.mem_cons.mp hb).resolve_left (Ne.symm hne)
    exact Or.inl (((List.singleton_sublist.mpr hafter).cons_cons a).trans
      (List.sublist_append_right before _))

theorem Precedes.asymm (hnodup : items.Nodup) (h : Precedes items a b) : ¬ Precedes items b a := by
  induction items with
  | nil => cases h
  | cons item rest ih =>
    obtain ⟨hitem, hrest⟩ := List.nodup_cons.mp hnodup
    intro h'
    cases h with
    | cons _ h =>
      cases h' with
      | cons _ h' => exact ih hrest h h'
      | cons_cons _ h' => exact hitem (h.subset (by simp))
    | cons_cons _ h =>
      cases h' with
      | cons _ h' => exact hitem (h'.subset (by simp))
      | cons_cons _ h' => exact hitem (h.subset (by simp))

theorem exists_precedes_of_map {β : Type} {f : α → β} {x y : β} (h : Precedes (items.map f) x y) :
    ∃ a b, Precedes items a b ∧ f a = x ∧ f b = y := by
  obtain ⟨pair, hpair, hmap⟩ := List.sublist_map_iff.mp h
  obtain ⟨a, rest, rfl, hx, hrest⟩ := List.map_eq_cons_iff.mp hmap.symm
  obtain ⟨b, others, rfl, hy, hothers⟩ := List.map_eq_cons_iff.mp hrest
  rw [List.map_eq_nil_iff.mp hothers] at hpair
  exact ⟨a, b, hpair, hx, hy⟩

end Precedes

end AtomicStyle
