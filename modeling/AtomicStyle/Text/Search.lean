/-!
# First occurrences

Cutting a text at the first place where another text stands in it.
-/

namespace AtomicStyle.Text

/-- The texts before and after the first occurrence of `needle`. -/
def cut? (needle : List Char) : List Char → Option (List Char × List Char)
  | [] => if needle.isEmpty then some ([], []) else none
  | c :: rest =>
    if needle.isPrefixOf (c :: rest) then some ([], (c :: rest).drop needle.length)
    else (cut? needle rest).map fun parts => (c :: parts.1, parts.2)

/-- Whether `needle` stands somewhere in the text. -/
def hasText (needle : String) (s : String) : Bool :=
  (cut? needle.toList s.toList).isSome

/-- A cut loses nothing: the text is the part before, the needle and the part after. -/
theorem eq_of_cut? {needle s before after : List Char} (h : cut? needle s = some (before, after)) :
    s = before ++ needle ++ after := by
  induction s generalizing before with
  | nil =>
    simp only [cut?] at h
    split at h
    · next hn =>
      simp only [Option.some.injEq, Prod.mk.injEq] at h
      simp [← h.1, ← h.2, List.isEmpty_iff.mp hn]
    · contradiction
  | cons c rest ih =>
    simp only [cut?] at h
    split at h
    · next hp =>
      simp only [Option.some.injEq, Prod.mk.injEq] at h
      obtain ⟨tail, ht⟩ := List.isPrefixOf_iff_prefix.mp hp
      rw [← h.1, ← h.2, ← ht]
      simp
    · cases hr : cut? needle rest with
      | none => simp [hr] at h
      | some parts =>
        simp only [hr, Option.map_some, Option.some.injEq, Prod.mk.injEq] at h
        have hrest : rest = parts.1 ++ needle ++ after := ih (by rw [hr, ← h.2])
        rw [← h.1, hrest]
        simp

/-- What follows a needle that is not empty is shorter than the text it was found in. -/
theorem length_lt_of_cut? {needle s before after : List Char} (hn : needle ≠ [])
    (h : cut? needle s = some (before, after)) : after.length < s.length := by
  have hl : 0 < needle.length := List.length_pos_iff.mpr hn
  rw [eq_of_cut? h]
  simp only [List.length_append]
  omega

end AtomicStyle.Text
