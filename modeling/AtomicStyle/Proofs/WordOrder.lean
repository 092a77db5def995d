import AtomicStyle.Proofs.Distinct
import AtomicStyle.Proofs.Spelling

/-!
# The order of words

The words of an outline, of a flex flow and of a line with a width, a style and a color are told apart
by their kinds, so they may be written in any order.  This takes two things: words that are joined by
spaces are found again, and what is made of them does not depend on their order.

A word is found again wherever it stands iff the parentheses and quotes that it opens are closed in it
and the other way round; else it leaves the top level, on which blanks separate words.  A closing
parenthesis too many does so as well: the blanks behind it separate nothing.

Results:
1. `words_intercalate`, `words_intercalate_perm_iff`: the words that are found again.
2. `sortParts?_eq`, `bind_sortParts?_perm`: words by kind, in any order.
3. `mergeSort_linePart_perm`: words of different kinds are sorted in one way.
4. `line_words_perm`: the shorthands whose words may be written in any order.
5. `closing_parenthesis_joins`: words with a closing parenthesis too many may not.
-/

namespace AtomicStyle

/-! ## Lookups -/

theorem isSome_lookup_iff {κ β : Type} [DecidableEq κ] {entries : List (κ × β)} {key : κ} :
    (entries.lookup key).isSome = true ↔ key ∈ entries.map Prod.fst := by
  induction entries with
  | nil => simp
  | cons entry rest ih =>
    rw [lookup_cons_eq_ite, List.map_cons, List.mem_cons, ← ih]
    split
    · next heq => exact iff_of_true rfl (.inl heq)
    · next hne => exact ⟨.inr, fun h => h.resolve_left hne⟩

/-- An entry of a key that occurs once is found wherever it stands. -/
theorem lookup_eq_of_perm {κ β : Type} [DecidableEq κ] {entries others : List (κ × β)}
    (hperm : entries.Perm others) (hnodup : (entries.map Prod.fst).Nodup) (key : κ) :
    entries.lookup key = others.lookup key := by
  induction hperm with
  | nil => rfl
  | cons entry _ ih =>
    rw [lookup_cons_eq_ite, lookup_cons_eq_ite, ih (List.nodup_cons.mp hnodup).2]
  | swap first second rest =>
    have hne : second.1 ≠ first.1 := fun heq =>
      (List.nodup_cons.mp hnodup).1 (heq ▸ List.mem_cons_self)
    simp only [lookup_cons_eq_ite]
    split
    · next hsecond => rw [if_neg (fun hfirst => hne (hsecond.symm.trans hfirst))]
    · rfl
  | trans hfirst _ ih ih' =>
    rw [ih hnodup, ih' ((hfirst.map Prod.fst).nodup_iff.mp hnodup)]

namespace Css

open AtomicStyle.Text

/-! ## Self-contained words -/

theorem wordMarksFrom_append (state : Int × Option Char) (s t : List Char) :
    wordMarksFrom state.1 state.2 (s ++ t) = wordMarksFrom state.1 state.2 s ++
      wordMarksFrom (s.foldl wordNext state).1 (s.foldl wordNext state).2 t := by
  induction s generalizing state with
  | nil => rfl
  | cons c s ih =>
    obtain ⟨separates, -, hstep⟩ := wordMarksFrom_cons state c
    rw [List.cons_append, hstep, hstep, ih, List.foldl_cons, List.cons_append]

/-- Only where nothing is open does a character separate words. -/
theorem wordMarksFrom_true {state : Int × Option Char} {c : Char} {s : List Char}
    {rest : List (Char × Bool)} (h : wordMarksFrom state.1 state.2 (c :: s) = (c, true) :: rest) :
    state = (0, none) := by
  obtain ⟨depth, quote⟩ := state
  cases quote with
  | some q =>
    rw [wordMarksFrom] at h
    simp at h
  | none =>
    by_cases hdepth : depth = 0
    · rw [hdepth]
    · rw [wordMarksFrom] at h
      simp only [beq_iff_eq, hdepth, Bool.and_eq_true, and_false, ↓reduceIte] at h
      split at h
      · simp at h
      · split at h
        · simp at h
        · split at h <;> simp at h

/-- A word on its own: it is its only word, and it leaves no quote open and no parenthesis, neither an
opening one nor a closing one too many. -/
structure SelfContained (word : String) : Prop where
  words_eq : words word = [word]
  closed : word.toList.foldl wordNext (0, none) = (0, none)

instance (word : String) : Decidable (SelfContained word) :=
  decidable_of_iff (words word = [word] ∧ word.toList.foldl wordNext (0, none) = (0, none))
    ⟨fun h => ⟨h.1, h.2⟩, fun h => ⟨h.words_eq, h.closed⟩⟩

theorem toList_append_space (text rest : String) :
    (text ++ " " ++ rest).toList = text.toList ++ ' ' :: rest.toList := by
  rw [String.toList_append, String.toList_append, List.append_assoc]
  rfl

/-- Behind a text that leaves nothing open, a space separates words. -/
theorem words_append_space {text : String} (h : text.toList.foldl wordNext (0, none) = (0, none))
    (rest : String) : words (text ++ " " ++ rest) = words text ++ words rest := by
  have hmarks : wordMarksFrom 0 none (text ++ " " ++ rest).toList =
      wordMarksFrom 0 none text.toList ++ (' ', true) :: wordMarksFrom 0 none rest.toList := by
    have happend := wordMarksFrom_append (0, none) text.toList (' ' :: rest.toList)
    rw [h] at happend
    rw [toList_append_space]
    exact happend
  have hsplit := List.splitOnP_append_cons (wordMarksFrom 0 none text.toList)
    (wordMarksFrom 0 none rest.toList) (by rfl : Prod.snd (' ', true) = true)
  unfold words wordChars
  rw [hmarks, hsplit, List.map_append, List.filter_append, List.map_append]

/-- Self-contained words that are joined by spaces are found again. -/
theorem words_intercalate {ws : List String} (h : ∀ w ∈ ws, SelfContained w) :
    words (String.intercalate " " ws) = ws := by
  induction ws with
  | nil => rfl
  | cons w rest ih =>
    have hw := h w List.mem_cons_self
    have hrest := ih fun v hv => h v (List.mem_cons_of_mem _ hv)
    cases rest with
    | nil => rw [String.intercalate_singleton, hw.words_eq]
    | cons next rest =>
      rw [String.intercalate_cons_cons, words_append_space hw.closed, hw.words_eq, hrest,
        List.singleton_append]

/-- In a text that is its own only word, no character separates words. -/
theorem not_separates_of_words_eq {word : String} (h : words word = [word]) :
    ∀ entry ∈ wordMarksFrom 0 none word.toList, entry.2 = false := by
  have hchars : wordChars word.toList = [word.toList] := by
    refine List.map_injective_iff.mpr (fun _ _ => String.ofList_inj.mp) ?_
    rw [List.map_singleton, String.ofList_toList]
    exact h
  have hkept : unmark ((wordMarksFrom 0 none word.toList).filter (!·.2)) = word.toList := by
    rw [← flatten_splitOnP, unmark, List.map_flatten, ← List.flatten_filter_not_isEmpty]
    show (wordChars word.toList).flatten = _
    rw [hchars, List.flatten_singleton]
  have hlength := congrArg List.length hkept
  rw [unmark, List.length_map, ← length_wordMarksFrom 0 none, List.length_filter_eq_length_iff]
    at hlength
  intro entry hentry
  simpa using hlength entry hentry

/-- Characters at the beginning of a text that do not separate words stand in its first word. -/
theorem length_le_of_words_eq_cons {text first : String} {later : List String}
    {front back : List (Char × Bool)} (hmarks : wordMarksFrom 0 none text.toList = front ++ back)
    (hjoined : ∀ entry ∈ front, entry.2 = false) (hne : front ≠ [])
    (h : words text = first :: later) : front.length ≤ first.toList.length := by
  obtain ⟨piece, others, hsplit, hpiece⟩ := exists_splitOnP_eq_cons hjoined ⟨back, hmarks.symm⟩
  have hkept : (!(unmark piece).isEmpty) = true := by
    cases piece with
    | nil => exact absurd (List.prefix_nil.mp hpiece) hne
    | cons entry piece => rfl
  rw [words, wordChars, hsplit, List.map_cons, List.filter_cons, if_pos hkept, List.map_cons] at h
  rw [← (List.cons.inj h).1, String.toList_ofList, unmark, List.length_map]
  exact hpiece.length_le

/-- A space behind a word that leaves something open belongs to the first word that is found. -/
theorem length_lt_of_words_append_space {word : String} (h : words word = [word])
    (hopen : word.toList.foldl wordNext (0, none) ≠ (0, none)) {rest first : String}
    {later : List String} (hwords : words (word ++ " " ++ rest) = first :: later) :
    word.toList.length < first.toList.length := by
  obtain ⟨separates, -, hspace⟩ := wordMarksFrom_cons (word.toList.foldl wordNext (0, none)) ' '
  cases separates with
  | true => exact absurd (wordMarksFrom_true (hspace [])) hopen
  | false =>
    have hmarks := wordMarksFrom_append (0, none) word.toList (' ' :: rest.toList)
    rw [← toList_append_space, hspace, @List.append_cons (Char × Bool)] at hmarks
    have hjoined : ∀ entry ∈ wordMarksFrom 0 none word.toList ++ [(' ', false)],
        entry.2 = false := by
      intro entry hentry
      rcases List.mem_append.mp hentry with hentry | hentry
      · exact not_separates_of_words_eq h entry hentry
      · rw [List.mem_singleton.mp hentry]
    have hlength := length_le_of_words_eq_cons hmarks hjoined (List.append_ne_nil_of_right_ne_nil _
      (List.cons_ne_nil _ _)) hwords
    rwa [List.length_append, length_wordMarksFrom] at hlength

/-- Two or more words, each of them its own only word, are found again in every order iff they are
self-contained. -/
theorem words_intercalate_perm_iff {ws : List String} (hwords : ∀ w ∈ ws, words w = [w])
    (htwo : 2 ≤ ws.length) :
    (∀ vs, ws.Perm vs → words (String.intercalate " " vs) = vs) ↔ ∀ w ∈ ws, SelfContained w := by
  constructor
  · intro hfound w hw
    refine ⟨hwords w hw, ?_⟩
    by_contra hopen
    have hperm := List.perm_cons_erase hw
    cases hrest : ws.erase w with
    | nil =>
      have hlength := hperm.length_eq
      rw [hrest, List.length_singleton] at hlength
      omega
    | cons v rest =>
      rw [hrest] at hperm
      have hfirst := hfound _ hperm
      rw [String.intercalate_cons_cons] at hfirst
      exact Nat.lt_irrefl _ (length_lt_of_words_append_space (hwords w hw) hopen hfirst)
  · intro hclosed vs hperm
    exact words_intercalate fun v hv => hclosed v (hperm.mem_iff.mpr hv)

/-- Joined words refer to a custom property iff one of them does. -/
theorem usesVar_intercalate {ws : List String} (h : ∀ w ∈ ws, SelfContained w) :
    usesVar (String.intercalate " " ws) = ws.any usesVar := by
  rw [Bool.eq_iff_iff, List.any_eq_true]
  constructor
  · intro hvar
    obtain ⟨word, hword, hinfix⟩ := exists_infix_word (by decide)
      (List.all_iff_forall_prop.mp (by decide)) (hasText_iff_isInfix.mp hvar)
    refine ⟨String.ofList word, ?_, hasText_iff_isInfix.mpr ?_⟩
    · rw [← words_intercalate h]
      exact List.mem_map_of_mem hword
    · rwa [@String.toList_ofList word]
  · rintro ⟨w, hw, hvar⟩
    exact hasText_iff_isInfix.mpr ((hasText_iff_isInfix.mp hvar).trans (infix_intercalate hw))

/-! ## Words by kind -/

section Kinds

variable {κ : Type} [DecidableEq κ] {ws vs : List String}

/-- The words that have a kind, each with its kind. -/
def kinded (kindOf : String → Option κ) (ws : List String) : List (κ × String) :=
  ws.filterMap fun word => (kindOf word).map (·, word)

/-- Words can be put into the parts of a shorthand iff each has a kind, and no two the same. -/
theorem sortParts?_eq (kindOf : String → Option κ) (ws : List String) :
    sortParts? kindOf ws = if (∀ word ∈ ws, (kindOf word).isSome = true) ∧
      ((kinded kindOf ws).map Prod.fst).Nodup then some (kinded kindOf ws) else none := by
  induction ws with
  | nil => simp [sortParts?, kinded]
  | cons word rest ih =>
    cases hkind : kindOf word with
    | none => simp [sortParts?, hkind]
    | some kind =>
      have hkinded : kinded kindOf (word :: rest) = (kind, word) :: kinded kindOf rest := by
        simp [kinded, hkind]
      simp only [sortParts?, hkind, Option.bind_eq_bind, Option.bind_some, ih, hkinded, List.map_cons,
        List.nodup_cons, List.forall_mem_cons, Option.isSome_some, true_and]
      by_cases hrest : (∀ other ∈ rest, (kindOf other).isSome = true) ∧
          ((kinded kindOf rest).map Prod.fst).Nodup
      · rw [if_pos hrest, Option.bind_some]
        by_cases hmem : kind ∈ (kinded kindOf rest).map Prod.fst
        · rw [if_pos (isSome_lookup_iff.mpr hmem), if_neg fun h => h.2.1 hmem]
        · rw [if_neg (mt isSome_lookup_iff.mp hmem), if_pos ⟨hrest.1, hmem, hrest.2⟩]
      · rw [if_neg hrest, if_neg fun h => hrest ⟨h.1, h.2.2⟩]
        rfl

/-- What the parts of a shorthand are looked up for does not depend on the order of the words. -/
theorem bind_sortParts?_perm {β : Type} (kindOf : String → Option κ)
    (view : (κ → Option String) → β) (hperm : ws.Perm vs) :
    ((sortParts? kindOf ws).bind fun parts => some (view (parts.lookup ·))) =
      (sortParts? kindOf vs).bind fun parts => some (view (parts.lookup ·)) := by
  have hkinded : (kinded kindOf ws).Perm (kinded kindOf vs) := hperm.filterMap _
  have hfits : ((∀ word ∈ ws, (kindOf word).isSome = true) ∧
      ((kinded kindOf ws).map Prod.fst).Nodup) ↔ (∀ word ∈ vs, (kindOf word).isSome = true) ∧
        ((kinded kindOf vs).map Prod.fst).Nodup := by
    simp only [hperm.mem_iff, (hkinded.map Prod.fst).nodup_iff]
  rw [sortParts?_eq, sortParts?_eq]
  by_cases h : (∀ word ∈ ws, (kindOf word).isSome = true) ∧
      ((kinded kindOf ws).map Prod.fst).Nodup
  · have hlookup : ((kinded kindOf ws).lookup ·) = ((kinded kindOf vs).lookup ·) :=
      funext (lookup_eq_of_perm hkinded h.2)
    rw [if_pos h, if_pos (hfits.mp h), Option.bind_some, Option.bind_some, hlookup]
  · rw [if_neg h, if_neg (mt hfits.mpr h)]

theorem flexFlow?_perm (hperm : ws.Perm vs) : flexFlow? ws = flexFlow? vs :=
  bind_sortParts?_perm flowPart? (fun part => [("flex-direction", (part .direction).getD "row"),
    ("flex-wrap", (part .wrap).getD "nowrap")]) hperm

theorem outline?_perm (hperm : ws.Perm vs) : outline? ws = outline? vs := by
  unfold outline?
  rw [hperm.length_eq]
  split
  · rfl
  · exact bind_sortParts?_perm (fun word => some (linePart word))
      (fun part => [("outline-color", (part .color).getD "currentColor"),
        ("outline-style", (part .style).getD "none"),
        ("outline-width", (part .width).getD "medium")]) hperm

end Kinds

/-! ## Lines -/

theorem LinePart.rank_inj {a b : LinePart} : a.rank = b.rank ↔ a = b := by
  cases a <;> cases b <;> decide

/-- Words of different kinds are sorted in one way. -/
theorem mergeSort_linePart_perm {ws vs : List String} (hperm : ws.Perm vs)
    (hnodup : (ws.map linePart).Nodup) :
    ws.mergeSort (fun a b => (linePart a).rank ≤ (linePart b).rank) =
      vs.mergeSort fun a b => (linePart a).rank ≤ (linePart b).rank := by
  have hsorted : ∀ words : List String,
      (words.mergeSort fun a b => (linePart a).rank ≤ (linePart b).rank).Pairwise fun a b =>
        (linePart a).rank ≤ (linePart b).rank := by
    intro words
    refine (List.pairwise_mergeSort (fun a b c hab hbc => ?_) (fun a b => ?_) words).imp
      of_decide_eq_true
    · exact decide_eq_true (Nat.le_trans (of_decide_eq_true hab) (of_decide_eq_true hbc))
    · rw [Bool.or_eq_true, decide_eq_true_iff, decide_eq_true_iff]
      exact Nat.le_total _ _
  refine List.Perm.eq_of_pairwise (fun a b ha hb hab hba => ?_) (hsorted ws) (hsorted vs) ?_
  · have hkind := LinePart.rank_inj.mp (Nat.le_antisymm hab hba)
    exact List.inj_on_of_nodup_map hnodup (List.mem_mergeSort.mp ha)
      (hperm.mem_iff.mpr (List.mem_mergeSort.mp hb)) hkind
  · exact (List.mergeSort_perm ws _).trans (hperm.trans (List.mergeSort_perm vs _).symm)

theorem length_eraseDups_map_eq_iff {α κ : Type} [DecidableEq κ] (key : α → κ) (items : List α) :
    (items.map key).eraseDups.length = (items.map key).length ↔ (items.map key).Nodup := by
  rw [← map_earliest, List.length_map, List.length_map]
  exact length_earliest_eq_iff key items

section Joined

variable {ws vs : List String}

theorem expand?_perm {property : String} (hperm : ws.Perm vs) (hws : ∀ w ∈ ws, SelfContained w)
    (hlonghands : longhands? property ws = longhands? property vs) :
    expand? property (String.intercalate " " ws) = expand? property (String.intercalate " " vs) := by
  have hvs : ∀ w ∈ vs, SelfContained w := fun w hw => hws w (hperm.mem_iff.mpr hw)
  simp only [expand?, words_intercalate hws, words_intercalate hvs, usesVar_intercalate hws,
    usesVar_intercalate hvs, hperm.any_eq, hperm.isEmpty_eq, hlonghands]

theorem reorderLine?_perm (property : String) (hperm : ws.Perm vs)
    (hws : ∀ w ∈ ws, SelfContained w) :
    reorderLine? property (String.intercalate " " ws) =
      reorderLine? property (String.intercalate " " vs) := by
  have hvs : ∀ w ∈ vs, SelfContained w := fun w hw => hws w (hperm.mem_iff.mpr hw)
  have hnodup : (ws.map linePart).Nodup ↔ (vs.map linePart).Nodup :=
    (hperm.map linePart).nodup_iff
  simp only [reorderLine?, words_intercalate hws, words_intercalate hvs, usesVar_intercalate hws,
    usesVar_intercalate hvs, hperm.any_eq, hperm.length_eq, bne_iff_ne, ne_eq,
    length_eraseDups_map_eq_iff, hnodup]
  by_cases hkinds : (vs.map linePart).Nodup
  · rw [mergeSort_linePart_perm hperm (hnodup.mpr hkinds)]
  · simp only [hkinds, not_false_eq_true, if_true]

/-- The words of an outline, of a flex flow and of a line may be written in any order, if each of them
is self-contained. -/
theorem line_words_perm (hperm : ws.Perm vs) (hws : ∀ w ∈ ws, SelfContained w) :
    expand? "outline" (String.intercalate " " ws) =
        expand? "outline" (String.intercalate " " vs) ∧
      expand? "flex-flow" (String.intercalate " " ws) =
        expand? "flex-flow" (String.intercalate " " vs) ∧
      ∀ property ∈ lineShorthands, reorderLine? property (String.intercalate " " ws) =
        reorderLine? property (String.intercalate " " vs) :=
  ⟨expand?_perm hperm hws (outline?_perm hperm), expand?_perm hperm hws (flexFlow?_perm hperm),
    fun property _ => reorderLine?_perm property hperm hws⟩

/-- A line whose color is written first, with blanks inside it. -/
theorem line_words_perm_color :
    (∀ w ∈ ["thick", "inset", "rgb(0 0 9)"], SelfContained w) ∧
      reorderLine? "column-rule" "rgb(0 0 9) inset thick" = some "thick inset rgb(0 0 9)" ∧
      expand? "outline" "rgb(0 0 9) inset thick" = expand? "outline" "thick inset rgb(0 0 9)" := by
  have hwords : ∀ w ∈ ["thick", "inset", "rgb(0 0 9)"], SelfContained w := by decide +kernel
  have hperm : ["thick", "inset", "rgb(0 0 9)"].Perm ["rgb(0 0 9)", "inset", "thick"] := by decide
  obtain ⟨houtline, -, hline⟩ := line_words_perm hperm hwords
  have hsorted : ["thick", "inset", "rgb(0 0 9)"].mergeSort
      (fun a b => (linePart a).rank ≤ (linePart b).rank) = ["thick", "inset", "rgb(0 0 9)"] :=
    List.mergeSort_of_pairwise (by decide +kernel)
  have hvalue :
      reorderLine? "column-rule" "thick inset rgb(0 0 9)" = some "thick inset rgb(0 0 9)" := by
    have hparts : words "thick inset rgb(0 0 9)" = ["thick", "inset", "rgb(0 0 9)"] := by
      decide +kernel
    simp only [reorderLine?, hparts, hsorted]
    decide +kernel
  exact ⟨hwords, (hline "column-rule" (by decide)).symm.trans hvalue, houtline.symm⟩

/-- A word with a closing parenthesis too many leaves no quote and no parenthesis open, but the space
behind it does not separate words: `red) solid` is one color, `solid red)` a style and a color. -/
theorem closing_parenthesis_joins :
    (∀ w ∈ ["red)", "solid"], words w = [w] ∧ (w.toList.foldl wordNext (0, none)).1 ≤ 0 ∧
        (w.toList.foldl wordNext (0, none)).2 = none) ∧
      expand? "outline" "red) solid" = some [("outline-color", "red) solid"),
        ("outline-style", "none"), ("outline-width", "medium")] ∧
      expand? "outline" "solid red)" = some [("outline-color", "red)"),
        ("outline-style", "solid"), ("outline-width", "medium")] ∧
      reorderLine? "column-rule" "red) solid" = none ∧
      (reorderLine? "column-rule" "solid red)").isSome = true := by
  decide +kernel

end Joined

end Css

end AtomicStyle
