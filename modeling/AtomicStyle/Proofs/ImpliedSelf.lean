import AtomicStyle.Proofs.SelfReference

/-!
# Implied self references

A child selector without `&` at its top level stands below its parent as if `&` stood before it: at
once before a colon, and with a space before anything else.  The space is left out again where the
child opens with a combinator.

The normal form of what follows `&` does not depend on `&`: outside brackets and quotes, the text that
was kept so far decides only whether a space comes before the next character (`normalizeFrom_cons`).

Results:
1. `normalizeChars_self`, `normalizeChars_self_space`: the normal form of a child with `&` before it.
2. `replaceSelf_of_not_hasSelf`: without `&` at the top level there is nothing to replace.
3. `nest_implied`: a child and the same child with `&` before it.
-/

namespace AtomicStyle.Selector

open AtomicStyle.Text

/-! ## Normal forms behind a self reference -/

/-- A space comes before the next character: blanks were left out, and none of the two characters
around them is a combinator. -/
def NormalState.spaced (state : NormalState) (c : Char) : Bool :=
  state.gap && !state.afterCombinator && state.started && !isCombinator c

/-- Outside brackets and quotes, a selector goes on as it would begin, but for a space. -/
theorem normalizeFrom_cons {state : NormalState} (hquote : state.quote = none)
    (hdepth : state.depth = 0) {c : Char} (hc : isBlank c = false) (s : List Char) :
    normalizeFrom state (c :: s) =
      (if state.spaced c then [' '] else []) ++ normalizeFrom {} (c :: s) := by
  unfold NormalState.spaced
  by_cases hcombinator : isCombinator c = true
  · simp [normalizeFrom, hquote, hdepth, hc, hcombinator]
  · by_cases hgap : (state.gap && !state.afterCombinator && state.started) = true
    · simp [normalizeFrom, hquote, hdepth, hc, hcombinator, hgap]
    · simp [normalizeFrom, hquote, hdepth, hc, hcombinator, hgap]

theorem exists_normalizeFrom_cons {c : Char} (hc : isBlank c = false) (s : List Char) :
    ∃ rest, normalizeFrom {} (c :: s) = c :: rest := by
  by_cases hcombinator : isCombinator c = true
  · exact ⟨_, by simp [normalizeFrom, hc, hcombinator]; rfl⟩
  · exact ⟨_, by simp [normalizeFrom, hc, hcombinator]; rfl⟩

section Child

variable {child : List Char} {c : Char} {s : List Char}

/-- What is not blank at its begin, before a text that is not blank at its end, is trimmed. -/
theorem trim_self_append_trim (h : trim child = c :: s) (between : List Char) :
    trim ('&' :: (between ++ trim child)) = '&' :: (between ++ trim child) := by
  refine trim_eq_self (fun d hd => ?_) fun d hd => ?_
  · obtain rfl : '&' = d := Option.some.inj hd
    decide
  · have hne : between ++ trim child ≠ [] := by simp [h]
    rw [List.getLast?_cons_of_ne_nil hne, List.getLast?_append_of_ne_nil _ (by simp [h])] at hd
    exact isBlank_of_getLast?_trim hd

theorem isBlank_of_trim_eq_cons (h : trim child = c :: s) : isBlank c = false :=
  isBlank_of_head?_trim (by rw [h, List.head?_cons])

theorem normalizeChars_self (h : trim child = c :: s) :
    normalizeChars ('&' :: trim child) = '&' :: normalizeChars child := by
  have hc := isBlank_of_trim_eq_cons h
  have htrim := trim_self_append_trim h []
  rw [List.nil_append] at htrim
  have hrest : normalizeFrom { started := true } (c :: s) = normalizeFrom {} (c :: s) :=
    normalizeFrom_cons rfl rfl hc s
  rw [normalizeChars, htrim, normalizeChars, h, ← hrest]
  rfl

theorem normalizeChars_self_space (h : trim child = c :: s) :
    normalizeChars ('&' :: ' ' :: trim child) =
      '&' :: ((if isCombinator c then [] else [' ']) ++ normalizeChars child) := by
  have hc := isBlank_of_trim_eq_cons h
  have hrest : normalizeFrom { started := true, gap := true } (c :: s) =
      (if isCombinator c then [] else [' ']) ++ normalizeFrom {} (c :: s) := by
    rw [normalizeFrom_cons rfl rfl hc s, NormalState.spaced]
    cases isCombinator c <;> rfl
  have htrim : trim ('&' :: ' ' :: trim child) = '&' :: ' ' :: trim child :=
    trim_self_append_trim h [' ']
  rw [normalizeChars, htrim, normalizeChars, h, ← hrest]
  rfl

end Child

/-! ## Nesting -/

/-- Without a self reference at the top level nothing is replaced. -/
theorem replaceSelf_of_not_hasSelf {s : List Char} (h : hasSelf s = false) (parent : List Char) :
    replaceSelf s parent = s := by
  have hkeep : ∀ entry ∈ mark s, (if entry == ('&', true) then parent else [entry.1]) = [entry.1] := by
    intro entry hentry
    refine if_neg fun heq => ?_
    rw [beq_iff_eq] at heq
    rw [hasSelf, ← Bool.not_eq_true, List.contains_iff_mem] at h
    exact h (heq ▸ hentry)
  rw [replaceSelf, List.flatMap_congr hkeep, ← List.map_eq_flatMap]
  exact unmark_mark s

theorem hasSelf_cons_space (s : List Char) : hasSelf (' ' :: s) = hasSelf s := rfl

/-- A child that opens with the only self reference at its top level. -/
theorem toList_nest_of_self {parent child : String} {rest : List Char}
    (hchild : normalizeChars child.toList = '&' :: rest) (hrest : hasSelf rest = false) :
    (nest parent child).toList = parent.toList ++ rest := by
  have hself : hasSelf ('&' :: rest) = true := rfl
  rw [toList_nest_of_hasSelf (by rw [hchild, hself]), hchild]
  exact congrArg (parent.toList ++ ·) (replaceSelf_of_not_hasSelf hrest parent.toList)

/-- A child without a self reference at its top level. -/
theorem toList_nest_of_not_hasSelf {parent child : String} {c : Char} {s : List Char}
    (hchild : trim child.toList = c :: s)
    (hself : hasSelf (normalizeChars child.toList) = false) :
    (nest parent child).toList = parent.toList ++
      ((if c == ':' || isCombinator c then [] else [' ']) ++ normalizeChars child.toList) := by
  obtain ⟨rest, hrest⟩ := exists_normalizeFrom_cons (isBlank_of_trim_eq_cons hchild) s
  have hnormal : normalizeChars child.toList = c :: rest := by
    rw [normalizeChars, hchild, hrest]
  rw [hnormal] at hself ⊢
  simp only [nest, hnormal, hself, Bool.false_eq_true, if_false]
  split
  · simp
  · simp [String.toList_append]

/-- A child that is not blank and has no self reference at its top level stands below its parent as
with a self reference before it: at once before a colon, with a space before anything else. -/
theorem nest_implied (parent child : String) (hchild : trimmed child ≠ "")
    (hself : hasSelf (normalize child).toList = false) :
    nest parent child = if (trimmed child).toList.head? = some ':'
      then nest parent ("&" ++ trimmed child) else nest parent ("& " ++ trimmed child) := by
  rw [toList_normalize] at hself
  have htrimmed : (trimmed child).toList = trim child.toList := String.toList_ofList
  obtain ⟨c, s, hcs⟩ : ∃ c s, trim child.toList = c :: s := by
    refine List.exists_cons_of_ne_nil fun hnil => hchild ?_
    rw [trimmed, hnil, String.ofList_nil]
  rw [← String.toList_inj, toList_nest_of_not_hasSelf hcs hself, htrimmed, hcs, List.head?_cons]
  by_cases hcolon : c = ':'
  · have hexplicit : normalizeChars ("&" ++ trimmed child).toList =
        '&' :: normalizeChars child.toList := by
      rw [String.toList_append, htrimmed]
      exact normalizeChars_self hcs
    rw [if_pos (congrArg some hcolon), toList_nest_of_self hexplicit hself, hcolon]
    rfl
  · have hexplicit : normalizeChars ("& " ++ trimmed child).toList =
        '&' :: ((if isCombinator c then [] else [' ']) ++ normalizeChars child.toList) := by
      rw [String.toList_append, htrimmed]
      exact normalizeChars_self_space hcs
    have hrest : hasSelf ((if isCombinator c then [] else [' ']) ++ normalizeChars child.toList) =
        false := by
      split
      · exact hself
      · rw [List.singleton_append, hasSelf_cons_space, hself]
    rw [if_neg (fun h => hcolon (Option.some.inj h)), toList_nest_of_self hexplicit hrest,
      beq_false_of_ne hcolon, Bool.false_or]

/-- Below a hovered element: a child that opens with a combinator and has `&` in brackets and quotes,
and one that opens with a colon. -/
theorem nest_implied_hover :
    hasSelf (normalize " >  [title='&']:not(&) .a ").toList = false ∧
      nest "&:hover" " >  [title='&']:not(&) .a " = "&:hover>[title='&']:not(&) .a" ∧
      nest "&:hover" "& >  [title='&']:not(&) .a" = "&:hover>[title='&']:not(&) .a" ∧
      nest "&:hover" " ::before" = nest "&:hover" "&::before" := by
  have hself : hasSelf (normalize " >  [title='&']:not(&) .a ").toList = false := by
    decide +kernel
  have hchild := nest_implied "&:hover" " >  [title='&']:not(&) .a " (by decide +kernel) hself
  have hpseudo := nest_implied "&:hover" " ::before" (by decide +kernel) (by decide +kernel)
  have hvalue : nest "&:hover" " >  [title='&']:not(&) .a " = "&:hover>[title='&']:not(&) .a" := by
    decide +kernel
  rw [if_neg (by decide +kernel), hvalue] at hchild
  rw [if_pos (by decide +kernel)] at hpseudo
  exact ⟨hself, hvalue, hchild.symm, hpseudo⟩

end AtomicStyle.Selector
