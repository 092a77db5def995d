import AtomicStyle.Text.Blank
import Mathlib.Data.List.TakeWhile

/-!
# Words of texts

Class lists are texts of words with blanks between them.  Everything about the words of a text
follows from one equation: a blank splits the words (`words_append_blank`).

Results:
1. `wordsOf_intercalate`: the words of joined texts are the words of the texts in order.
2. `wordsOf_intercalate_of_isWord`, `intercalate_injective_of_isWord`: joined words are found
   again, so a joined text determines its words.
3. `words_trim`: trimming takes no word away.
-/

namespace AtomicStyle.Text

/-- A word has a character, and none of its characters is blank. -/
def IsWord (s : String) : Prop :=
  s.toList ≠ [] ∧ ∀ c ∈ s.toList, isBlank c = false

instance (s : String) : Decidable (IsWord s) :=
  inferInstanceAs (Decidable (_ ∧ _))

/-! ## Lists of characters -/

@[simp] theorem words_nil : words [] = [] := by
  simp [words]

/-- A blank separates the words before it from the words after it. -/
theorem words_append_blank {c : Char} (hc : isBlank c = true) (s t : List Char) :
    words (s ++ c :: t) = words s ++ words t := by
  unfold words
  rw [List.splitOnP_append_cons s t hc, List.filter_append]

theorem words_cons_blank {c : Char} (hc : isBlank c = true) (s : List Char) :
    words (c :: s) = words s := by
  simpa using words_append_blank hc [] s

/-- A text without a blank is one word, unless it is empty. -/
theorem words_of_forall_not_blank {s : List Char} (h : ∀ c ∈ s, isBlank c = false) :
    words s = if s = [] then [] else [s] := by
  rw [words, List.splitOnP_eq_singleton fun c hc => h c hc]
  by_cases hs : s = []
  · simp [hs]
  · simp [hs]

theorem words_append_blanks {t : List Char} (ht : ∀ c ∈ t, isBlank c = true) (s : List Char) :
    words (s ++ t) = words s := by
  induction t generalizing s with
  | nil => simp
  | cons c t ih =>
    have hc : isBlank c = true := ht c List.mem_cons_self
    have hrest : words t = [] := by
      simpa using ih (fun d hd => ht d (List.mem_cons_of_mem _ hd)) []
    rw [words_append_blank hc, hrest, List.append_nil]

theorem words_trimStart (s : List Char) : words (trimStart s) = words s := by
  unfold trimStart
  induction s with
  | nil => rfl
  | cons c s ih =>
    cases hc : isBlank c with
    | true => rw [List.dropWhile_cons_of_pos hc, ih, words_cons_blank hc]
    | false => rw [List.dropWhile_cons_of_neg (by simp [hc])]

theorem words_trimEnd (s : List Char) : words (trimEnd s) = words s := by
  have hsplit : s = trimEnd s ++ (s.reverse.takeWhile isBlank).reverse := by
    rw [trimEnd, ← List.reverse_append, List.takeWhile_append_dropWhile, List.reverse_reverse]
  have hblank : ∀ c ∈ (s.reverse.takeWhile isBlank).reverse, isBlank c = true := by
    intro c hc
    exact List.mem_takeWhile_imp (List.mem_reverse.mp hc)
  conv => rhs; rw [hsplit]
  exact (words_append_blanks hblank _).symm

/-- The blanks at the two ends of a text belong to no word. -/
theorem words_trim (s : List Char) : words (trim s) = words s := by
  rw [trim, words_trimEnd, words_trimStart]

theorem trimEnd_prefix (s : List Char) : trimEnd s <+: s := by
  have hsuffix : s.reverse.dropWhile isBlank <:+ s.reverse := List.dropWhile_suffix _
  rwa [← List.reverse_prefix, List.reverse_reverse] at hsuffix

/-- A trimmed text opens with a character that is not blank. -/
theorem isBlank_of_head?_trim {s : List Char} {c : Char} (h : (trim s).head? = some c) :
    isBlank c = false := by
  obtain ⟨rest, hrest⟩ := List.head?_eq_some_iff.mp h
  obtain ⟨after, hafter⟩ := trimEnd_prefix (trimStart s)
  have hhead : (s.dropWhile isBlank).head? = some c := by
    rw [trim] at hrest
    rw [hrest] at hafter
    exact congrArg List.head? hafter.symm
  have hfirst := List.head?_dropWhile_not isBlank s
  rwa [hhead] at hfirst

theorem isBlank_of_getLast?_trim {s : List Char} {c : Char} (h : (trim s).getLast? = some c) :
    isBlank c = false := by
  rw [trim, trimEnd, List.getLast?_reverse] at h
  have hfirst := List.head?_dropWhile_not isBlank (trimStart s).reverse
  rwa [h] at hfirst

theorem trimStart_eq_self {s : List Char} (hhead : ∀ c, s.head? = some c → isBlank c = false) :
    trimStart s = s := by
  cases s with
  | nil => rfl
  | cons c rest => exact List.dropWhile_cons_of_neg (by simp [hhead c rfl])

/-- A text with no blank at its ends is trimmed already. -/
theorem trim_eq_self {s : List Char} (hhead : ∀ c, s.head? = some c → isBlank c = false)
    (hlast : ∀ c, s.getLast? = some c → isBlank c = false) : trim s = s := by
  have hend : s.reverse.dropWhile isBlank = s.reverse := by
    cases hreverse : s.reverse with
    | nil => rfl
    | cons c rest =>
      have hc : s.getLast? = some c := by rw [← List.head?_reverse, hreverse, List.head?_cons]
      exact List.dropWhile_cons_of_neg (by simp [hlast c hc])
  rw [trim, trimStart_eq_self hhead, trimEnd, hend, List.reverse_reverse]

/-- A text is what is left without the blanks at its ends, and these blanks. -/
theorem exists_eq_trim (s : List Char) : ∃ before after, s = before ++ (trim s ++ after) ∧
    (∀ c ∈ before, isBlank c = true) ∧ ∀ c ∈ after, isBlank c = true := by
  have hstart : s = s.takeWhile isBlank ++ trimStart s := List.takeWhile_append_dropWhile.symm
  have hend : trimStart s = trim s ++ ((trimStart s).reverse.takeWhile isBlank).reverse := by
    rw [trim, trimEnd, ← List.reverse_append, List.takeWhile_append_dropWhile, List.reverse_reverse]
  refine ⟨s.takeWhile isBlank, ((trimStart s).reverse.takeWhile isBlank).reverse, ?_, ?_, ?_⟩
  · rw [← hend]
    exact hstart
  · exact fun c hc => List.mem_takeWhile_imp hc
  · exact fun c hc => List.mem_takeWhile_imp (List.mem_reverse.mp hc)

theorem trim_trim (s : List Char) : trim (trim s) = trim s :=
  trim_eq_self (fun _ => isBlank_of_head?_trim) fun _ => isBlank_of_getLast?_trim

/-- No piece between separators has a separator in it.  The piece that has begun is given last
item first. -/
theorem not_of_mem_splitOnPPrepend {α : Type} {p : α → Bool} {s begun w : List α}
    (hb : ∀ c ∈ begun, p c = false) (hw : w ∈ s.splitOnPPrepend p begun) :
    ∀ c ∈ w, p c = false := by
  induction s generalizing begun with
  | nil =>
    rw [List.splitOnPPrepend_nil, List.mem_singleton] at hw
    intro c hc
    exact hb c (List.mem_reverse.mp (hw ▸ hc))
  | cons d s ih =>
    cases hd : p d with
    | true =>
      rw [List.splitOnPPrepend_cons_pos hd, ← List.splitOnPPrepend_nil_right] at hw
      cases hw with
      | head => exact fun c hc => hb c (List.mem_reverse.mp hc)
      | tail _ hw => exact ih (by simp) hw
    | false =>
      rw [List.splitOnPPrepend_cons_neg hd] at hw
      refine ih ?_ hw
      intro c hc
      cases hc with
      | head => exact hd
      | tail _ hc => exact hb c hc

theorem flatten_splitOnP {α : Type} (p : α → Bool) (s : List α) :
    (s.splitOnP p).flatten = s.filter (!p ·) := by
  induction s with
  | nil => rfl
  | cons x s ih =>
    rw [List.splitOnP_cons_eq_if_modifyHead]
    cases hx : p x with
    | true => simp [hx, ih]
    | false =>
      cases hsplit : s.splitOnP p with
      | nil => exact absurd hsplit (List.splitOnP_ne_nil p s)
      | cons first rest =>
        rw [hsplit] at ih
        simp [hx, ← ih]

/-! ## Strings -/

theorem isWord_of_mem_wordsOf {s w : String} (hw : w ∈ wordsOf s) : IsWord w := by
  obtain ⟨chars, hc, rfl⟩ := List.mem_map.mp hw
  obtain ⟨hmem, hne⟩ := List.mem_filter.mp hc
  refine ⟨?_, ?_⟩
  · simpa using hne
  · rw [String.toList_ofList]
    exact not_of_mem_splitOnPPrepend (by simp) hmem

theorem wordsOf_of_isWord {w : String} (hw : IsWord w) : wordsOf w = [w] := by
  rw [wordsOf, words_of_forall_not_blank hw.2, if_neg hw.1]
  simp

/-- A space separates the words before it from the words after it. -/
theorem wordsOf_append_space (s t : String) : wordsOf (s ++ " " ++ t) = wordsOf s ++ wordsOf t := by
  have hspace : " ".toList = [' '] := rfl
  have hwords : words (s ++ " " ++ t).toList = words s.toList ++ words t.toList := by
    rw [String.toList_append, String.toList_append, hspace, List.append_assoc]
    exact words_append_blank (by decide) s.toList t.toList
  rw [wordsOf, hwords, List.map_append]
  rfl

/-- The words of texts that are joined by spaces are the words of the texts in order. -/
theorem wordsOf_intercalate (texts : List String) :
    wordsOf (String.intercalate " " texts) = texts.flatMap wordsOf := by
  induction texts with
  | nil => rfl
  | cons text rest ih =>
    cases rest with
    | nil => simp
    | cons next rest =>
      rw [String.intercalate_cons_cons, wordsOf_append_space, ih]
      exact List.flatMap_cons.symm

theorem flatMap_wordsOf_of_isWord {names : List String} (h : ∀ name ∈ names, IsWord name) :
    names.flatMap wordsOf = names := by
  induction names with
  | nil => rfl
  | cons name rest ih =>
    rw [List.flatMap_cons, wordsOf_of_isWord (h name List.mem_cons_self),
      ih fun other ho => h other (List.mem_cons_of_mem _ ho)]
    rfl

/-- Words that are joined by spaces are found again. -/
theorem wordsOf_intercalate_of_isWord {names : List String} (h : ∀ name ∈ names, IsWord name) :
    wordsOf (String.intercalate " " names) = names := by
  rw [wordsOf_intercalate, flatMap_wordsOf_of_isWord h]

/-- A text determines the words from which it was joined. -/
theorem intercalate_injective_of_isWord {names others : List String}
    (hn : ∀ name ∈ names, IsWord name) (ho : ∀ name ∈ others, IsWord name)
    (h : String.intercalate " " names = String.intercalate " " others) : names = others := by
  rw [← wordsOf_intercalate_of_isWord hn, h, wordsOf_intercalate_of_isWord ho]

end AtomicStyle.Text
