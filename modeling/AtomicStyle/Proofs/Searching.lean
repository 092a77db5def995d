import AtomicStyle.Text.Search
import Mathlib.Data.List.Infix

/-!
# Cuts of texts in a row

Results:
1. `hasText_iff_isInfix`: what is found in a text.
2. `cut?_eq_none_of_part`: what is not in a text is in no part of it.
3. `cut?_append`: a text that a needle can neither stand in nor begin in is passed over.
-/

namespace AtomicStyle.Text

theorem hasText_eq_false_iff {needle s : String} :
    hasText needle s = false ↔ cut? needle.toList s.toList = none := by
  rw [hasText, Option.isSome_eq_false_iff, Option.isNone_iff_eq_none]

theorem isSome_cut?_append {needle : List Char} (before after : List Char) :
    (cut? needle (before ++ (needle ++ after))).isSome = true := by
  induction before with
  | nil =>
    cases needle with
    | nil => cases after <;> rfl
    | cons c needle =>
      rw [List.nil_append, List.cons_append, cut?, if_pos]
      · rfl
      · exact List.isPrefixOf_iff_prefix.mpr (List.prefix_append (c :: needle) after)
  | cons c before ih =>
    rw [List.cons_append, cut?]
    split
    · rfl
    · rw [Option.isSome_map, ih]

/-- A text is found iff it stands somewhere. -/
theorem hasText_iff_isInfix {needle s : String} :
    hasText needle s = true ↔ needle.toList <:+: s.toList := by
  constructor
  · intro h
    obtain ⟨parts, hcut⟩ := Option.isSome_iff_exists.mp h
    exact ⟨parts.1, parts.2, (eq_of_cut? hcut).symm⟩
  · rintro ⟨before, after, h⟩
    rw [hasText, ← h, List.append_assoc]
    exact isSome_cut?_append before after

theorem cut?_cons_eq_none {needle rest : List Char} {c : Char} :
    cut? needle (c :: rest) = none ↔
      ¬ needle <+: c :: rest ∧ cut? needle rest = none := by
  rw [cut?]
  split
  · next h => simp [List.isPrefixOf_iff_prefix.mp h]
  · next h =>
    rw [List.isPrefixOf_iff_prefix] at h
    simp [h]

theorem cut?_eq_none_of_not_mem {needle s : List Char} {c : Char} (hneedle : c ∈ needle)
    (hs : c ∉ s) : cut? needle s = none := by
  cases hcut : cut? needle s with
  | none => rfl
  | some parts =>
    refine absurd ?_ hs
    rw [eq_of_cut? hcut]
    simp [hneedle]

/-- What is not in a text is in no part of it. -/
theorem cut?_eq_none_of_part {needle s t : List Char} (hpart : t <:+: s)
    (h : cut? needle s = none) : cut? needle t = none := by
  cases hcut : cut? needle t with
  | none => rfl
  | some parts =>
    obtain ⟨before, after, rfl⟩ := hpart
    have hfound := @isSome_cut?_append needle (before ++ parts.1) (parts.2 ++ after)
    rw [eq_of_cut? hcut] at h
    simp only [List.append_assoc] at h hfound
    rw [h] at hfound
    cases hfound

/-- A text that stands at the begin is found there. -/
theorem cut?_append_left {needle : List Char} (hneedle : needle ≠ []) (after : List Char) :
    cut? needle (needle ++ after) = some ([], after) := by
  obtain ⟨c, rest, rfl⟩ := List.exists_cons_of_ne_nil hneedle
  have hfound : (c :: rest).isPrefixOf (c :: rest ++ after) = true :=
    List.isPrefixOf_iff_prefix.mpr (List.prefix_append _ _)
  rw [List.cons_append] at hfound ⊢
  rw [cut?, if_pos hfound, ← List.cons_append, List.drop_left]

/-- A text that the needle does not stand in, and that ends with no character of it, is passed
over. -/
theorem cut?_append {needle s : List Char} (h : cut? needle s = none)
    (hlast : ∀ c, s.getLast? = some c → c ∉ needle) (t : List Char) :
    cut? needle (s ++ t) = (cut? needle t).map fun parts => (s ++ parts.1, parts.2) := by
  induction s with
  | nil => simp
  | cons c rest ih =>
    obtain ⟨hnot, hrest⟩ := cut?_cons_eq_none.mp h
    have hlater : ∀ d, rest.getLast? = some d → d ∉ needle :=
      fun d hd => hlast d (by rw [List.getLast?_cons, hd]; rfl)
    have habsent : ¬ needle.isPrefixOf (c :: (rest ++ t)) = true := by
      intro hfound
      rw [List.isPrefixOf_iff_prefix, ← List.cons_append] at hfound
      rcases List.prefix_or_prefix_of_prefix hfound (List.prefix_append (c :: rest) t) with h | h
      · exact hnot h
      · exact hlast _ (List.getLast?_eq_some_getLast (List.cons_ne_nil c rest))
          (h.mem (List.getLast_mem _))
    rw [List.cons_append, cut?, if_neg habsent, ih hrest hlater, Option.map_map]
    rfl

/-- The text before the first of the given characters. -/
theorem takeWhile_bne_append {c : Char} {before : List Char} (h : c ∉ before) (after : List Char) :
    (before ++ c :: after).takeWhile (· != c) = before := by
  have hne : ∀ d ∈ before, (d != c) = true := fun d hd => bne_iff_ne.mpr (ne_of_mem_of_not_mem hd h)
  rw [List.takeWhile_append_of_pos hne, List.takeWhile_cons_of_neg (by simp), List.append_nil]

end AtomicStyle.Text
