import AtomicStyle.Proofs.Collapsing
import AtomicStyle.Rule.Atomize

/-!
# Canonical spelling

The canonical spelling of a value changes blanks and whole words.  A text without blanks that stands
in a value stands in one of its words, and a word with a parenthesis is spelled as it is.

Results:
1. `infix_collapseChars`, `exists_infix_word`: texts without blanks stay in one piece.
2. `hasText_canonical`: such a text with a parenthesis is found in the canonical spelling.
3. `longhands_of_usesVar`: a value that refers to a custom property is not taken apart.
-/

namespace AtomicStyle

open AtomicStyle.Text

/-! ## Pieces between separators -/

section Pieces

variable {α : Type} {p : α → Bool}

/-- Items at the begin of a list, with no separator among them, are at the begin of the first
piece. -/
theorem exists_splitOnP_eq_cons {s t : List α} (ht : ∀ x ∈ t, p x = false) (h : t <+: s) :
    ∃ first rest, s.splitOnP p = first :: rest ∧ t <+: first := by
  induction s generalizing t with
  | nil =>
    rw [List.prefix_nil.mp h]
    exact ⟨[], [], List.splitOnP_nil, List.nil_prefix⟩
  | cons x s ih =>
    cases t with
    | nil =>
      obtain ⟨first, rest, hsplit⟩ := List.exists_cons_of_ne_nil (List.splitOnP_ne_nil p (x :: s))
      exact ⟨first, rest, hsplit, List.nil_prefix⟩
    | cons y t =>
      obtain ⟨rfl, hrest⟩ := List.cons_prefix_cons.mp h
      obtain ⟨first, rest, hsplit, hfirst⟩ :=
        ih (fun z hz => ht z (List.mem_cons_of_mem _ hz)) hrest
      refine ⟨y :: first, rest, ?_, List.cons_prefix_cons.mpr ⟨rfl, hfirst⟩⟩
      rw [List.splitOnP_cons_eq_if_modifyHead, if_neg (by simp [ht y List.mem_cons_self]), hsplit]
      rfl

/-- Items with no separator among them stay in one piece. -/
theorem exists_mem_splitOnP {s t : List α} (ht : ∀ x ∈ t, p x = false) (h : t <:+: s) :
    ∃ piece ∈ s.splitOnP p, t <:+: piece := by
  induction s with
  | nil =>
    rw [List.infix_nil.mp h]
    exact ⟨[], List.mem_singleton_self _, List.nil_infix⟩
  | cons x s ih =>
    rcases List.infix_cons_iff.mp h with hbegin | hlater
    · obtain ⟨first, rest, hsplit, hfirst⟩ := exists_splitOnP_eq_cons ht hbegin
      exact ⟨first, hsplit ▸ List.mem_cons_self, hfirst.isInfix⟩
    · obtain ⟨piece, hpiece, hinfix⟩ := ih hlater
      rw [List.splitOnP_cons_eq_if_modifyHead]
      split
      · exact ⟨piece, List.mem_cons_of_mem _ hpiece, hinfix⟩
      · cases hsplit : s.splitOnP p with
        | nil => exact absurd hsplit (List.splitOnP_ne_nil p s)
        | cons first rest =>
          rw [hsplit] at hpiece
          rcases List.mem_cons.mp hpiece with rfl | hpiece
          · exact ⟨x :: piece, List.mem_cons_self, List.infix_cons hinfix⟩
          · exact ⟨piece, List.mem_cons_of_mem _ hpiece, hinfix⟩

end Pieces

namespace Css

/-! ## Blanks -/

/-- A text without blanks that stands in a value stands in the collapsed value. -/
theorem infix_collapseChars {needle s : List Char} (hneedle : NoBlank needle) (h : needle <:+: s) :
    needle <:+: collapseChars s := by
  obtain ⟨front, back, rfl⟩ := h
  cases needle with
  | nil => exact List.nil_infix
  | cons c word =>
    have hvalid := CollapseState.valid_start.foldl_next front
    obtain ⟨kept, after, -, hfresh, hvalid, hfirst⟩ := exists_collapseFrom_cons hvalid
      (fun d (hd : d ∈ []) => by cases hd) (hneedle c List.mem_cons_self) (word ++ back)
    have hword := collapseFrom_of_noBlank hfresh hvalid
      fun d hd => hneedle d (List.mem_cons_of_mem _ hd)
    rw [List.nil_append] at hfirst
    refine ⟨collapseFrom {} front ++ kept,
      collapseFrom (word.foldl CollapseState.next after) back, ?_⟩
    rw [collapseChars, List.append_assoc front, collapseFrom_append, List.cons_append, hfirst,
      collapseFrom_append, hword]
    simp

/-! ## Words -/

/-- The depth in parentheses and the open quote after a character. -/
def wordNext : Int × Option Char → Char → Int × Option Char
  | (depth, some q), c => (depth, if c == q then none else some q)
  | (depth, none), c =>
    if isQuote c then (depth, some c)
    else if c == '(' then (depth + 1, none)
    else if c == ')' then (depth - 1, none)
    else (depth, none)

/-- What one character does: it keeps its place, and it separates words only if it is blank. -/
theorem wordMarksFrom_cons (state : Int × Option Char) (c : Char) :
    ∃ separates, (separates = true → isBlank c = true) ∧
      ∀ s, wordMarksFrom state.1 state.2 (c :: s) =
        (c, separates) :: wordMarksFrom (wordNext state c).1 (wordNext state c).2 s := by
  obtain ⟨depth, quote⟩ := state
  cases quote with
  | some q => exact ⟨false, by simp, fun s => rfl⟩
  | none =>
    by_cases hblank : (isBlank c && depth == 0) = true
    · have hc : isBlank c = true := (Bool.and_eq_true_iff.mp hblank).1
      have hquote : isQuote c = false := by
        refine Bool.eq_false_iff.mpr fun hquote => ?_
        rw [isBlank_of_isQuote hquote] at hc
        cases hc
      have hopening : c ≠ '(' := fun heq => absurd (heq ▸ hc) (by decide)
      have hclosing : c ≠ ')' := fun heq => absurd (heq ▸ hc) (by decide)
      have hnext : wordNext (depth, none) c = (depth, none) := by
        simp [wordNext, hquote, hopening, hclosing]
      refine ⟨true, fun _ => hc, fun s => ?_⟩
      rw [hnext, wordMarksFrom, if_pos hblank]
    · refine ⟨false, by simp, fun s => ?_⟩
      rw [wordMarksFrom, if_neg hblank]
      simp only [wordNext]
      split
      · rfl
      · split
        · rfl
        · split <;> rfl

/-- What one character does outside quotes: a quote opens, and a blank may separate words. -/
theorem wordMarksFrom_none (depth : Int) (c : Char) :
    ∃ separates depth', (separates = true → isBlank c = true) ∧
      ∀ s, wordMarksFrom depth none (c :: s) =
        (c, separates) :: wordMarksFrom depth' (if isQuote c then some c else none) s := by
  obtain ⟨separates, hblank, hstep⟩ := wordMarksFrom_cons (depth, none) c
  have hquote : (wordNext (depth, none) c).2 = if isQuote c then some c else none := by
    simp only [wordNext]
    split
    · rfl
    · split
      · rfl
      · split <;> rfl
  rw [hquote] at hstep
  exact ⟨separates, _, hblank, hstep⟩

theorem unmark_wordMarksFrom (depth : Int) (quote : Option Char) (s : List Char) :
    unmark (wordMarksFrom depth quote s) = s := by
  induction s generalizing depth quote with
  | nil => rfl
  | cons c s ih =>
    obtain ⟨separates, -, hstep⟩ := wordMarksFrom_cons (depth, quote) c
    rw [hstep]
    exact congrArg (List.cons c) (ih _ _)

theorem length_wordMarksFrom (depth : Int) (quote : Option Char) (s : List Char) :
    (wordMarksFrom depth quote s).length = s.length := by
  rw [← List.length_map (f := Prod.fst), ← unmark, unmark_wordMarksFrom]

/-- Only blanks separate words. -/
theorem isBlank_of_mem_wordMarksFrom {depth : Int} {quote : Option Char} {s : List Char} {c : Char}
    (h : (c, true) ∈ wordMarksFrom depth quote s) : isBlank c = true := by
  induction s generalizing depth quote with
  | nil => cases h
  | cons d s ih =>
    obtain ⟨separates, hblank, hstep⟩ := wordMarksFrom_cons (depth, quote) d
    rw [hstep] at h
    rcases List.mem_cons.mp h with heq | h
    · cases heq
      exact hblank rfl
    · exact ih h

/-- A text without blanks that stands in a value stands in one of its words. -/
theorem exists_infix_word {needle s : List Char} (hne : needle ≠ []) (hneedle : NoBlank needle)
    (h : needle <:+: s) : ∃ word ∈ wordChars s, needle <:+: word := by
  obtain ⟨front, back, heq⟩ := h
  rw [← unmark_wordMarksFrom 0 none s] at heq
  obtain ⟨before, after, hmarks, hbefore, -⟩ := List.map_eq_append_iff.mp heq.symm
  obtain ⟨lead, marked, rfl, -, rfl⟩ := List.map_eq_append_iff.mp hbefore
  have hinside : marked <:+: wordMarksFrom 0 none s := ⟨_, after, hmarks.symm⟩
  have hjoined : ∀ entry ∈ marked, entry.2 = false := by
    rintro ⟨c, separates⟩ hentry
    cases separates with
    | false => rfl
    | true =>
      have hblank := isBlank_of_mem_wordMarksFrom (hinside.mem hentry)
      rw [hneedle c (List.mem_map_of_mem hentry)] at hblank
      cases hblank
  obtain ⟨piece, hpiece, hinfix⟩ := exists_mem_splitOnP hjoined hinside
  have hword : marked.map Prod.fst <:+: unmark piece := hinfix.map _
  refine ⟨unmark piece, List.mem_filter.mpr ⟨List.mem_map_of_mem hpiece, ?_⟩, hword⟩
  cases hempty : unmark piece with
  | nil =>
    rw [hempty] at hword
    exact absurd (List.infix_nil.mp hword) hne
  | cons c word => rfl

/-- A word with a parenthesis is spelled as it is. -/
theorem canonicalWord_of_mem {word : String} (h : '(' ∈ word.toList) :
    canonicalWord word = word := by
  have hlower : '(' ∈ (lower word).toList := by
    rw [lower, String.toList_ofList]
    exact List.mem_map.mpr ⟨'(', h, by decide⟩
  have hcolor : lower word ≠ "currentcolor" := by
    intro heq
    rw [heq] at hlower
    exact absurd hlower (by decide)
  have hdashed : lower word ≠ "current-color" := by
    intro heq
    rw [heq] at hlower
    exact absurd hlower (by decide)
  simp [canonicalWord, hcolor, hdashed]

theorem infix_intercalate {word : String} {texts : List String} (h : word ∈ texts) :
    word.toList <:+: (String.intercalate " " texts).toList := by
  induction texts with
  | nil => cases h
  | cons text rest ih =>
    cases rest with
    | nil =>
      rw [List.mem_singleton.mp h, String.intercalate_singleton]
    | cons next rest =>
      rw [String.intercalate_cons_cons, String.toList_append, String.toList_append,
        List.append_assoc]
      rcases List.mem_cons.mp h with rfl | h
      · exact (List.prefix_append _ _).isInfix
      · exact (ih h).trans ((List.suffix_append _ _).trans (List.suffix_append _ _)).isInfix

/-- A text without blanks and with a parenthesis that stands in a value stands in its canonical
spelling. -/
theorem hasText_canonical {needle value : String} (hneedle : NoBlank needle.toList)
    (hopen : '(' ∈ needle.toList) (h : hasText needle value = true) :
    hasText needle (canonical value) = true := by
  rw [hasText_iff_isInfix] at h ⊢
  have hcollapsed : needle.toList <:+: (collapse value).toList := by
    rw [collapse, String.toList_ofList]
    exact infix_collapseChars hneedle h
  obtain ⟨word, hword, hinfix⟩ := exists_infix_word (List.ne_nil_of_mem hopen) hneedle hcollapsed
  have hkept : canonicalWord (String.ofList word) = String.ofList word :=
    canonicalWord_of_mem (by rw [String.toList_ofList]; exact hinfix.mem hopen)
  have hmem : String.ofList word ∈ (words (collapse value)).map canonicalWord :=
    List.mem_map.mpr ⟨_, List.mem_map_of_mem hword, hkept⟩
  have hwhole := infix_intercalate hmem
  rw [String.toList_ofList] at hwhole
  exact hinfix.trans hwhole

/-! ## Values that refer to custom properties -/

/-- A value that refers to a custom property is not taken apart. -/
theorem longhands_of_usesVar {property value : String} (h : usesVar (canonical value) = true) :
    longhands property value = [(property, canonical value)] := by
  have hempty : (canonical value).isEmpty = false := by
    rw [Bool.eq_false_iff, ne_eq, String.isEmpty_iff]
    intro heq
    rw [heq] at h
    exact absurd h (by decide)
  have hline : reorderLine? property (canonical value) = none := by
    simp [reorderLine?, h]
  have hexpand : expand? property (canonical value) = none := by
    simp [expand?, h]
  simp [longhands, hempty, hline, hexpand]

end Css

end AtomicStyle
