import AtomicStyle.Css.Value
import AtomicStyle.Proofs.Searching
import AtomicStyle.Proofs.Words
import Mathlib.Data.Bool.AllAny
import Mathlib.Data.List.DropRight

/-!
# Collapsed values

Collapsing a value changes nothing but blanks.  It adds one character at a time to the collapsed
text, so texts in a row are collapsed in a row, each from the state that the one before it leaves.
Characters with no blank between them stay together, and those with a blank between them stay apart.

Results:
1. `collapseChars_collapseChars`: a collapsed value stays as it is.
2. `cut?_collapseChars`: no text without blanks comes up by collapsing.
3. `stripImportant?_collapseChars`, `stripImportant?_collapseChars_eq_none`: collapsing keeps the
   `!important` at the end of a value, and makes none.
4. `sameValue_collapse`: a value declares what its collapsed text declares.
-/

namespace AtomicStyle.Css

open AtomicStyle.Text

/-- Every character is blank. -/
def AllBlank (s : List Char) : Prop :=
  ∀ c ∈ s, isBlank c = true

/-- No character is blank. -/
def NoBlank (s : List Char) : Prop :=
  ∀ c ∈ s, isBlank c = false

theorem allBlank_cons {c : Char} {s : List Char} :
    AllBlank (c :: s) ↔ isBlank c = true ∧ AllBlank s :=
  List.forall_mem_cons

/-! ## One character -/

namespace CollapseState

/-- The state after one more character. -/
def next (state : CollapseState) (c : Char) : CollapseState :=
  match state.quote with
  | some q => state.quotedStep q c
  | none =>
    if isBlank c then { state with gap := state.started }
    else { started := true, quote := if isQuote c then some c else none }

/-- What one more character adds to the collapsed text. -/
def emit (state : CollapseState) (c : Char) : List Char :=
  match state.quote with
  | some _ => [c]
  | none => if isBlank c then [] else if state.gap then [' ', c] else [c]

/-- A character was kept, and no blank was left out since. -/
def Fresh (state : CollapseState) : Prop :=
  state.started = true ∧ state.gap = false

/-- What is open is a quote, inside quotes nothing is left out, and blanks count as left out only
after a kept character. -/
structure Valid (state : CollapseState) : Prop where
  isQuote : ∀ q, state.quote = some q → isQuote q = true
  fresh : ∀ q, state.quote = some q → state.Fresh
  started : state.gap = true → state.started = true

theorem valid_start : Valid {} where
  isQuote := by
    intro q h
    cases h
  fresh := by
    intro q h
    cases h
  started := by
    intro h
    cases h

variable {state : CollapseState} {c : Char}

theorem fresh_quotedStep {q : Char} : (state.quotedStep q c).Fresh ↔ state.Fresh := by
  unfold quotedStep
  split
  · exact Iff.rfl
  · split
    · exact Iff.rfl
    · split <;> exact Iff.rfl

theorem quote_quotedStep {q : Char} :
    (state.quotedStep q c).quote = state.quote ∨ (state.quotedStep q c).quote = none := by
  unfold quotedStep
  split
  · exact Or.inl rfl
  · split
    · exact Or.inl rfl
    · split
      · exact Or.inr rfl
      · exact Or.inl rfl

/-- What one character does: inside quotes it is kept, outside a blank is left out, and any other
character is kept after the space that stands for the blanks before it. -/
theorem step_cases (state : CollapseState) (c : Char) :
    (∃ q, state.quote = some q ∧ state.emit c = [c] ∧ state.next c = state.quotedStep q c) ∨
      (state.quote = none ∧ isBlank c = true ∧ state.emit c = [] ∧
        state.next c = { state with gap := state.started }) ∨
      (state.quote = none ∧ isBlank c = false ∧
        state.emit c = (if state.gap then [' '] else []) ++ [c] ∧
        state.next c = { started := true, quote := if isQuote c then some c else none }) := by
  unfold emit next
  cases hquote : state.quote with
  | some q => exact Or.inl ⟨q, rfl, rfl, rfl⟩
  | none =>
    cases hc : isBlank c with
    | true => exact Or.inr (Or.inl ⟨rfl, rfl, rfl, rfl⟩)
    | false =>
      refine Or.inr (Or.inr ⟨rfl, rfl, ?_, rfl⟩)
      cases state.gap <;> rfl

theorem Valid.next (h : state.Valid) (c : Char) : (state.next c).Valid := by
  obtain ⟨q, hquote, -, hnext⟩ | ⟨hquote, -, -, hnext⟩ | ⟨-, -, -, hnext⟩ := state.step_cases c
  · have hfresh : (state.next c).Fresh := by
      rw [hnext]
      exact fresh_quotedStep.mpr (h.fresh q hquote)
    refine ⟨fun r hr => ?_, fun _ _ => hfresh, fun _ => hfresh.1⟩
    rw [hnext] at hr
    rcases @quote_quotedStep state c q with hsame | hnone
    · exact h.isQuote r (hsame.symm.trans hr)
    · rw [hnone] at hr
      cases hr
  · rw [hnext]
    have hnone : ∀ q, state.quote ≠ some q := by
      intro q hq
      rw [hquote] at hq
      cases hq
    exact ⟨fun q hq => absurd hq (hnone q), fun q hq => absurd hq (hnone q), id⟩
  · rw [hnext]
    refine ⟨fun q hq => ?_, fun _ _ => ⟨rfl, rfl⟩, fun _ => rfl⟩
    dsimp only at hq
    split at hq
    · next hc =>
      cases hq
      exact hc
    · cases hq

theorem Valid.foldl_next (h : state.Valid) (s : List Char) : (s.foldl CollapseState.next state).Valid := by
  induction s generalizing state with
  | nil => exact h
  | cons c s ih => exact ih (h.next c)

theorem Valid.fresh_next (h : state.Valid) (hc : isBlank c = false) : (state.next c).Fresh := by
  obtain ⟨q, hquote, -, hnext⟩ | ⟨-, hblank, -, -⟩ | ⟨-, -, -, hnext⟩ := state.step_cases c
  · rw [hnext]
    exact fresh_quotedStep.mpr (h.fresh q hquote)
  · rw [hc] at hblank
    cases hblank
  · rw [hnext]
    exact ⟨rfl, rfl⟩

theorem withoutGap_eq (h : state.gap = false) : { state with gap := false } = state := by
  cases state
  cases h
  rfl

end CollapseState

open CollapseState

theorem collapseFrom_cons (state : CollapseState) (c : Char) (rest : List Char) :
    collapseFrom state (c :: rest) = state.emit c ++ collapseFrom (state.next c) rest := by
  rw [collapseFrom]
  unfold emit next
  cases state.quote with
  | some q => rfl
  | none =>
    cases isBlank c with
    | true => rfl
    | false => cases state.gap <;> rfl

theorem isBlank_of_isQuote {c : Char} (hc : isQuote c = true) : isBlank c = false := by
  simp only [isQuote, Bool.or_eq_true, beq_iff_eq] at hc
  rcases hc with rfl | rfl <;> decide

theorem next_of_quote {state : CollapseState} {q : Char} (h : state.quote = some q) (c : Char) :
    state.next c = state.quotedStep q c := by
  unfold next
  rw [h]

/-- Blanks close no quote. -/
theorem quote_foldl_next_of_allBlank {state : CollapseState} {q : Char} (hquote : state.quote = some q)
    (hq : isQuote q = true) {blanks : List Char} (h : AllBlank blanks) :
    (blanks.foldl next state).quote = some q := by
  induction blanks generalizing state with
  | nil => exact hquote
  | cons c blanks ih =>
    obtain ⟨hc, hblanks⟩ := allBlank_cons.mp h
    have hne : (c == q) = false := by
      refine beq_eq_false_iff_ne.mpr ?_
      rintro rfl
      rw [isBlank_of_isQuote hq] at hc
      cases hc
    refine ih ?_ hblanks
    rw [next_of_quote hquote, quotedStep, hne]
    split
    · exact hquote
    · split <;> exact hquote

/-! ## Texts in a row -/

theorem collapseFrom_append (state : CollapseState) (s t : List Char) :
    collapseFrom state (s ++ t) = collapseFrom state s ++ collapseFrom (s.foldl next state) t := by
  induction s generalizing state with
  | nil => rfl
  | cons c s ih =>
    rw [List.cons_append, collapseFrom_cons, collapseFrom_cons, ih, List.append_assoc,
      List.foldl_cons]

/-- Collapsing keeps every character that is not blank, in order. -/
theorem filter_collapseFrom (state : CollapseState) (s : List Char) :
    (collapseFrom state s).filter (!isBlank ·) = s.filter (!isBlank ·) := by
  induction s generalizing state with
  | nil => rfl
  | cons c s ih =>
    rw [collapseFrom_cons, List.filter_append, ih, ← List.singleton_append, List.filter_append]
    congr 1
    obtain ⟨q, -, hemit, -⟩ | ⟨-, hblank, hemit, -⟩ | ⟨-, hblank, hemit, -⟩ := state.step_cases c
    · rw [hemit]
    · simp [hemit, hblank]
    · have hspace : isBlank ' ' = true := by decide
      cases hgap : state.gap <;> simp [hemit, hblank, hgap, hspace]

theorem allBlank_iff_filter {s : List Char} : AllBlank s ↔ s.filter (!isBlank ·) = [] := by
  simp [AllBlank]

theorem allBlank_collapseFrom_iff {state : CollapseState} {s : List Char} :
    AllBlank (collapseFrom state s) ↔ AllBlank s := by
  rw [allBlank_iff_filter, allBlank_iff_filter, filter_collapseFrom]

/-- Outside quotes, blanks alone add nothing. -/
theorem collapseFrom_of_allBlank {state : CollapseState} (hquote : state.quote = none)
    {s : List Char} (hs : AllBlank s) : collapseFrom state s = [] := by
  induction s generalizing state with
  | nil => rfl
  | cons c s ih =>
    have hc : isBlank c = true := hs c List.mem_cons_self
    obtain ⟨q, hq, -, -⟩ | ⟨-, -, hemit, hnext⟩ | ⟨-, hblank, -, -⟩ := state.step_cases c
    · rw [hquote] at hq
      cases hq
    · rw [collapseFrom_cons, hemit, hnext]
      exact @ih { state with gap := state.started } hquote
        fun d hd => hs d (List.mem_cons_of_mem _ hd)
    · rw [hc] at hblank
      cases hblank

/-! ## Forwards -/

/-- A character that is not blank is kept, with blanks before it only if there were some. -/
theorem exists_collapseFrom_cons {state : CollapseState} (h : state.Valid) {blanks : List Char}
    (hblanks : AllBlank blanks) {c : Char} (hc : isBlank c = false) (rest : List Char) :
    ∃ kept after, AllBlank kept ∧ after.Fresh ∧ after.Valid ∧
      collapseFrom state (blanks ++ c :: rest) = kept ++ c :: collapseFrom after rest := by
  have hvalid := h.foldl_next blanks
  have hkept : AllBlank (collapseFrom state blanks) := allBlank_collapseFrom_iff.mpr hblanks
  obtain ⟨q, -, hemit, -⟩ | ⟨-, hblank, -, -⟩ | ⟨-, -, hemit, -⟩ :=
    (blanks.foldl next state).step_cases c
  · refine ⟨_, _, hkept, hvalid.fresh_next hc, hvalid.next c, ?_⟩
    rw [collapseFrom_append, collapseFrom_cons, hemit]
    rfl
  · rw [hc] at hblank
    cases hblank
  · refine ⟨collapseFrom state blanks ++ if (blanks.foldl next state).gap then [' '] else [], _, ?_,
      hvalid.fresh_next hc, hvalid.next c, ?_⟩
    · intro d hd
      rcases List.mem_append.mp hd with hd | hd
      · exact hkept d hd
      · split at hd
        · rw [List.mem_singleton.mp hd]
          decide
        · cases hd
    · rw [collapseFrom_append, collapseFrom_cons, hemit]
      simp

theorem collapseFrom_of_noBlank {state : CollapseState} (hfresh : state.Fresh) (h : state.Valid)
    {word : List Char} (hword : NoBlank word) : collapseFrom state word = word := by
  induction word generalizing state with
  | nil => rfl
  | cons c word ih =>
    have hc : isBlank c = false := hword c List.mem_cons_self
    have hrest := ih (h.fresh_next hc) (h.next c) fun d hd => hword d (List.mem_cons_of_mem _ hd)
    rw [collapseFrom_cons, hrest]
    obtain ⟨q, -, hemit, -⟩ | ⟨-, hblank, -, -⟩ | ⟨-, -, hemit, -⟩ := state.step_cases c
    · rw [hemit]
      rfl
    · rw [hc] at hblank
      cases hblank
    · rw [hemit, hfresh.2]
      rfl

/-! ## Backwards -/

/-- A kept character that is not blank comes from one of the text. -/
theorem exists_of_collapseFrom_eq {state : CollapseState} (h : state.Valid) {s before after : List Char}
    {c : Char} (hc : isBlank c = false) (heq : collapseFrom state s = before ++ c :: after) :
    ∃ front back there, s = front ++ c :: back ∧ (AllBlank before → AllBlank front) ∧
      there.Fresh ∧ there.Valid ∧ collapseFrom there back = after := by
  induction s generalizing state before with
  | nil => cases before <;> cases heq
  | cons d s ih =>
    have hvalid := h.next d
    -- If the first character is kept, it is the one in question or stands before it.
    have hkept : ∀ {kept}, d :: collapseFrom (state.next d) s = kept ++ c :: after →
        ∃ front back there, d :: s = front ++ c :: back ∧ (AllBlank kept → AllBlank front) ∧
          there.Fresh ∧ there.Valid ∧ collapseFrom there back = after := by
      intro kept heq
      cases kept with
      | nil =>
        obtain ⟨rfl, hrest⟩ := List.cons.inj heq
        exact ⟨[], s, state.next d, rfl, id, h.fresh_next hc, hvalid, hrest⟩
      | cons e kept =>
        obtain ⟨rfl, hrest⟩ := List.cons.inj heq
        obtain ⟨front, back, there, rfl, hfront, hthere⟩ := ih hvalid hrest
        refine ⟨d :: front, back, there, rfl, fun hall => ?_, hthere⟩
        exact allBlank_cons.mpr ⟨hall d List.mem_cons_self, hfront (allBlank_cons.mp hall).2⟩
    rw [collapseFrom_cons] at heq
    obtain ⟨q, -, hemit, -⟩ | ⟨-, hblank, hemit, -⟩ | ⟨-, -, hemit, -⟩ := state.step_cases d
    · rw [hemit] at heq
      exact hkept heq
    · rw [hemit] at heq
      obtain ⟨front, back, there, rfl, hfront, hthere⟩ := ih hvalid heq
      exact ⟨d :: front, back, there, rfl, fun hall => allBlank_cons.mpr ⟨hblank, hfront hall⟩,
        hthere⟩
    · cases hgap : state.gap with
      | false =>
        rw [hemit, hgap] at heq
        exact hkept heq
      | true =>
        rw [hemit, hgap] at heq
        cases before with
        | nil =>
          obtain ⟨rfl, -⟩ := List.cons.inj heq
          exact absurd hc (by decide)
        | cons e before =>
          obtain ⟨-, hrest⟩ := List.cons.inj heq
          obtain ⟨front, back, there, hs, hfront, hthere⟩ := hkept hrest
          exact ⟨front, back, there, hs, fun hall => hfront (allBlank_cons.mp hall).2, hthere⟩

/-- After blanks that were left out comes a space. -/
theorem collapseFrom_ne_cons_of_gap {state : CollapseState} (hquote : state.quote = none)
    (hgap : state.gap = true) (hstarted : state.started = true) {c : Char} (hc : isBlank c = false)
    (s after : List Char) : collapseFrom state s ≠ c :: after := by
  intro heq
  induction s generalizing state with
  | nil => cases heq
  | cons d s ih =>
    rw [collapseFrom_cons] at heq
    obtain ⟨q, hq, -, -⟩ | ⟨-, -, hemit, hnext⟩ | ⟨-, -, hemit, -⟩ := state.step_cases d
    · rw [hquote] at hq
      cases hq
    · rw [hemit, hnext] at heq
      exact @ih { state with gap := state.started } hquote hstarted hstarted heq
    · rw [hemit, hgap] at heq
      obtain ⟨rfl, -⟩ := List.cons.inj heq
      exact absurd hc (by decide)

/-- Kept characters with no blank between them have none between them in the text. -/
theorem exists_of_collapseFrom_eq_append {state : CollapseState} (hfresh : state.Fresh)
    (h : state.Valid) {s word after : List Char} (hword : NoBlank word)
    (heq : collapseFrom state s = word ++ after) :
    ∃ back there, s = word ++ back ∧ there.Fresh ∧ there.Valid ∧
      collapseFrom there back = after := by
  induction word generalizing state s with
  | nil => exact ⟨s, state, rfl, hfresh, h, heq⟩
  | cons c word ih =>
    have hc : isBlank c = false := hword c List.mem_cons_self
    cases s with
    | nil => cases heq
    | cons d s =>
      have hkept : d :: collapseFrom (state.next d) s = c :: (word ++ after) →
          ∃ back there, d :: s = c :: word ++ back ∧ there.Fresh ∧ there.Valid ∧
            collapseFrom there back = after := by
        intro heq
        obtain ⟨rfl, hrest⟩ := List.cons.inj heq
        obtain ⟨back, there, rfl, hthere⟩ := ih (h.fresh_next hc) (h.next d)
          (fun e he => hword e (List.mem_cons_of_mem _ he)) hrest
        exact ⟨back, there, rfl, hthere⟩
      rw [collapseFrom_cons] at heq
      obtain ⟨q, -, hemit, -⟩ | ⟨hquote, -, hemit, hnext⟩ | ⟨-, -, hemit, -⟩ := state.step_cases d
      · rw [hemit] at heq
        exact hkept heq
      · rw [hemit, hnext] at heq
        exact absurd heq (@collapseFrom_ne_cons_of_gap { state with gap := state.started }
          hquote hfresh.1 hfresh.1 c hc s _)
      · rw [hemit, hfresh.2] at heq
        exact hkept heq

/-! ## Collapsing twice -/

/-- Collapsing is idempotent, from any state without the blanks that the collapsed text shows. -/
theorem collapseFrom_collapseFrom {state : CollapseState} (h : state.Valid) (s : List Char) :
    collapseFrom { state with gap := false } (collapseFrom state s) = collapseFrom state s := by
  induction s generalizing state with
  | nil => rfl
  | cons c s ih =>
    have hrest := ih (h.next c)
    obtain ⟨q, hquote, hemit, hnext⟩ | ⟨-, -, hemit, hnext⟩ | ⟨hquote, hblank, hemit, -⟩ :=
      state.step_cases c
    · have hfresh : (state.next c).Fresh := by
        rw [hnext]
        exact fresh_quotedStep.mpr (h.fresh q hquote)
      rw [withoutGap_eq hfresh.2] at hrest
      rw [withoutGap_eq (h.fresh q hquote).2, collapseFrom_cons, hemit, List.singleton_append,
        collapseFrom_cons, hemit, hrest, List.singleton_append]
    · rw [hnext] at hrest
      rw [collapseFrom_cons, hemit, hnext]
      exact hrest
    · rw [withoutGap_eq (h.fresh_next hblank).2] at hrest
      have hkept : collapseFrom state (c :: collapseFrom (state.next c) s) =
          collapseFrom state (c :: s) := by
        rw [collapseFrom_cons, collapseFrom_cons, hrest]
      cases hgap : state.gap with
      | false =>
        rw [withoutGap_eq hgap]
        conv => lhs; rw [collapseFrom_cons, hemit, hgap]
        exact hkept
      | true =>
        -- The space that stands for the blanks leads back to the state in which they were left out.
        have hspace : CollapseState.next { state with gap := false } ' ' = state := by
          have hstarted := h.started hgap
          cases state
          cases hquote
          cases hgap
          cases hstarted
          rfl
        have hnone : CollapseState.emit { state with gap := false } ' ' = [] := by
          unfold emit
          rw [hquote]
          rfl
        conv => lhs; rw [collapseFrom_cons state, hemit, hgap]
        show collapseFrom { state with gap := false } (' ' :: c :: collapseFrom (state.next c) s) = _
        rw [collapseFrom_cons, hspace, hnone]
        exact hkept

theorem collapseChars_collapseChars (s : List Char) :
    collapseChars (collapseChars s) = collapseChars s :=
  collapseFrom_collapseFrom valid_start s

/-! ## Texts without blanks -/

/-- No text without blanks comes up by collapsing. -/
theorem cut?_collapseChars {needle s : List Char} (hne : needle ≠ []) (hneedle : NoBlank needle)
    (h : cut? needle s = none) : cut? needle (collapseChars s) = none := by
  cases hcut : cut? needle (collapseChars s) with
  | none => rfl
  | some parts =>
    obtain ⟨c, word, rfl⟩ := List.exists_cons_of_ne_nil hne
    have heq := eq_of_cut? hcut
    rw [List.append_assoc, List.cons_append] at heq
    obtain ⟨front, back, there, rfl, -, hfresh, hvalid, hback⟩ :=
      exists_of_collapseFrom_eq valid_start (hneedle c List.mem_cons_self) heq
    obtain ⟨rest, -, rfl, -⟩ := exists_of_collapseFrom_eq_append hfresh hvalid
      (fun d hd => hneedle d (List.mem_cons_of_mem _ hd)) hback
    have hfound := @isSome_cut?_append (c :: word) front rest
    rw [List.cons_append, h] at hfound
    cases hfound

/-! ## Blanks at the end -/

theorem trimEnd_append_of_allBlank {blanks : List Char} (h : AllBlank blanks) (s : List Char) :
    trimEnd (s ++ blanks) = trimEnd s := by
  have hreverse : ∀ c ∈ blanks.reverse, isBlank c = true := fun c hc => h c (List.mem_reverse.mp hc)
  rw [trimEnd, trimEnd, List.reverse_append, List.dropWhile_append_of_pos hreverse]

theorem trimEnd_append_singleton {c : Char} (hc : isBlank c = false) (s : List Char) :
    trimEnd (s ++ [c]) = s ++ [c] :=
  List.rdropWhile_concat_neg isBlank s c (by simp [hc])

/-- A text is what is left without the blanks at its end, and these blanks. -/
theorem exists_eq_trimEnd_append (s : List Char) :
    ∃ blanks, AllBlank blanks ∧ s = trimEnd s ++ blanks := by
  refine ⟨(s.reverse.takeWhile isBlank).reverse, fun c hc => ?_, ?_⟩
  · exact List.mem_takeWhile_imp (List.mem_reverse.mp hc)
  · rw [trimEnd, ← List.reverse_append, List.takeWhile_append_dropWhile, List.reverse_reverse]

theorem allBlank_trimEnd_iff {s : List Char} : AllBlank (trimEnd s) ↔ AllBlank s := by
  obtain ⟨blanks, hblanks, hs⟩ := exists_eq_trimEnd_append s
  constructor
  · intro h c hc
    rw [hs] at hc
    exact (List.mem_append.mp hc).elim (h c) (hblanks c)
  · intro h c hc
    refine h c ?_
    rw [hs]
    exact List.mem_append_left _ hc

theorem exists_reverse_eq (s : List Char) :
    ∃ blanks, AllBlank blanks ∧ s.reverse = (s.dropWhile isBlank).reverse ++ blanks := by
  simpa [trimEnd] using exists_eq_trimEnd_append s.reverse

theorem trimEnd_trimEnd (s : List Char) : trimEnd (trimEnd s) = trimEnd s :=
  List.rdropWhile_idempotent isBlank s

theorem trimEnd_collapseChars {s : List Char} (h : trimEnd s = s) :
    trimEnd (collapseChars s) = collapseChars s := by
  rcases List.eq_nil_or_concat s with rfl | ⟨front, c, rfl⟩
  · rfl
  · rw [List.concat_eq_append] at h ⊢
    have hc : isBlank c = false := by
      cases hblank : isBlank c with
      | false => rfl
      | true =>
        have hall : AllBlank [c] := allBlank_cons.mpr ⟨hblank, fun d hd => by cases hd⟩
        obtain ⟨rest, hrest⟩ := trimEnd_prefix front
        have hlength := congrArg List.length hrest
        rw [← trimEnd_append_of_allBlank hall front, h] at hlength
        simp at hlength
    obtain ⟨kept, after, -, -, -, hcollapse⟩ := exists_collapseFrom_cons
      (valid_start.foldl_next front) (fun d (hd : d ∈ []) => by cases hd) hc []
    rw [List.nil_append, collapseFrom] at hcollapse
    unfold collapseChars
    rw [collapseFrom_append, hcollapse, ← List.append_assoc]
    exact trimEnd_append_singleton hc _

/-! ## Importance -/

theorem toLower_of_isBlank {c : Char} (h : isBlank c = true) : c.toLower = c := by
  unfold Char.toLower
  split
  · next hupper =>
    have hlow : 65 ≤ c.toNat := UInt32.le_iff_toNat_le.mp hupper.1
    have hhigh : c.toNat ≤ 90 := UInt32.le_iff_toNat_le.mp hupper.2
    simp only [isBlank, blankRanges, List.any_cons, List.any_nil, Bool.or_eq_true,
      Bool.and_eq_true, decide_eq_true_eq, Bool.false_eq_true, or_false] at h
    omega
  · rfl

/-- The text of `!important`, with blanks inside and after it. -/
def IsImportance (s : List Char) : Prop :=
  ∃ blanks word ending, s = '!' :: (blanks ++ (word ++ ending)) ∧ AllBlank blanks ∧
    AllBlank ending ∧ word.map Char.toLower = "important".toList

theorem noBlank_of_important {word : List Char}
    (h : word.map Char.toLower = "important".toList) : NoBlank word := by
  intro c hc
  cases hblank : isBlank c with
  | false => rfl
  | true =>
    have hmem : c ∈ "important".toList := by
      rw [← h, ← toLower_of_isBlank hblank]
      exact List.mem_map_of_mem hc
    have hnone : ∀ d ∈ "important".toList, isBlank d = false :=
      List.all_iff_forall_prop.mp (by decide)
    rw [hnone c hmem] at hblank
    cases hblank

/-- What is split off is `!important`, together with the blanks before it. -/
theorem exists_of_stripImportant? {s rest : List Char} (h : stripImportant? s = some rest) :
    trimEnd rest = rest ∧ ∃ blanks tail, s = rest ++ (blanks ++ tail) ∧ AllBlank blanks ∧
      IsImportance tail := by
  unfold stripImportant? at h
  dsimp only at h
  generalize hlast : s.reverse.dropWhile isBlank = last at h
  generalize hsize : "important".toList.reverse.length = size at h
  split at h
  · next hword =>
    split at h
    · next before hmark =>
      cases h
      obtain ⟨ending, hending, hs⟩ := exists_reverse_eq s.reverse
      obtain ⟨blanks, hblanks, hinside⟩ := exists_reverse_eq (last.drop size)
      obtain ⟨gap, hgap, hbefore⟩ := exists_reverse_eq before
      have hsplit : last.reverse = (last.drop size).reverse ++ (last.take size).reverse := by
        rw [← List.reverse_append, List.take_append_drop]
      have hrest : trimEnd (before.dropWhile isBlank).reverse =
          (before.dropWhile isBlank).reverse := by
        simpa [trimEnd] using trimEnd_trimEnd before.reverse
      refine ⟨hrest, gap, '!' :: (blanks ++ ((last.take size).reverse ++ ending)), ?_, hgap,
        blanks, _, ending, rfl, hblanks, hending, ?_⟩
      · rw [List.reverse_reverse, hlast, hsplit, hinside, hmark, List.reverse_cons, hbefore] at hs
        rw [hs]
        simp
      · rw [List.map_reverse, beq_iff_eq.mp hword, List.reverse_reverse]
    · cases h
  · cases h

theorem stripImportant?_append {tail : List Char} (h : IsImportance tail) (s : List Char) :
    stripImportant? (s ++ tail) = some (trimEnd s) := by
  obtain ⟨blanks, word, ending, rfl, hblanks, hending, hword⟩ := h
  have hblank : ∀ {t : List Char}, AllBlank t → ∀ c ∈ t.reverse, isBlank c = true :=
    fun ht c hc => ht c (List.mem_reverse.mp hc)
  have hreverse : (s ++ '!' :: (blanks ++ (word ++ ending))).reverse =
      ending.reverse ++ (word.reverse ++ (blanks.reverse ++ '!' :: s.reverse)) := by
    simp
  have hlast : (word.reverse ++ (blanks.reverse ++ '!' :: s.reverse)).dropWhile isBlank =
      word.reverse ++ (blanks.reverse ++ '!' :: s.reverse) := by
    cases hcons : word.reverse with
    | nil =>
      rw [List.reverse_eq_nil_iff.mp hcons] at hword
      cases hword
    | cons c chars =>
      have hc : c ∈ word := List.mem_reverse.mp (hcons ▸ List.mem_cons_self)
      exact List.dropWhile_cons_of_neg (by simp [noBlank_of_important hword c hc])
  have hsize : word.reverse.length = "important".toList.reverse.length := by
    rw [List.length_reverse, List.length_reverse, ← hword, List.length_map]
  have hmatch : word.reverse.map Char.toLower = "important".toList.reverse := by
    rw [List.map_reverse, hword]
  have hmark : (blanks.reverse ++ '!' :: s.reverse).dropWhile isBlank = '!' :: s.reverse := by
    rw [List.dropWhile_append_of_pos (hblank hblanks)]
    exact List.dropWhile_cons_of_neg (by decide)
  unfold stripImportant?
  rw [hreverse, List.dropWhile_append_of_pos (hblank hending), hlast]
  dsimp only
  rw [List.take_left' hsize, List.drop_left' hsize, hmark, hmatch, if_pos (beq_self_eq_true _)]
  rfl

/-- Collapsing takes `!important` to `!important`. -/
theorem exists_collapseFrom_importance {state : CollapseState} (h : state.Valid) {tail : List Char}
    (htail : IsImportance tail) :
    ∃ kept ending, AllBlank kept ∧ IsImportance ending ∧ collapseFrom state tail = kept ++ ending := by
  obtain ⟨blanks, word, ending, rfl, hblanks, hending, hword⟩ := htail
  have hnoblank := noBlank_of_important hword
  cases word with
  | nil => cases hword
  | cons c word =>
    obtain ⟨kept, atMark, hkept, -, hvalid, hmark⟩ := exists_collapseFrom_cons h
      (fun d (hd : d ∈ []) => by cases hd) (by decide : isBlank '!' = false)
      (blanks ++ (c :: word ++ ending))
    obtain ⟨inside, atWord, hinside, hfresh, hvalid, hfirst⟩ := exists_collapseFrom_cons hvalid
      hblanks (hnoblank c List.mem_cons_self) (word ++ ending)
    have hchars := collapseFrom_of_noBlank hfresh hvalid
      fun d hd => hnoblank d (List.mem_cons_of_mem _ hd)
    refine ⟨kept, '!' :: (inside ++ (c :: word ++ collapseFrom (word.foldl next atWord) ending)),
      hkept, ⟨inside, c :: word, _, rfl, hinside, allBlank_collapseFrom_iff.mpr hending, hword⟩, ?_⟩
    rw [List.nil_append] at hmark
    rw [hmark, List.cons_append, hfirst, collapseFrom_append, hchars, List.cons_append]

/-- What stands before `!important` is collapsed on its own. -/
theorem stripImportant?_collapseChars {s rest : List Char} (h : stripImportant? s = some rest) :
    stripImportant? (collapseChars s) = some (collapseChars rest) := by
  obtain ⟨hrest, blanks, tail, rfl, hblanks, htail⟩ := exists_of_stripImportant? h
  have hvalid := (valid_start.foldl_next rest).foldl_next blanks
  obtain ⟨kept, ending, hkept, hending, hcollapse⟩ := exists_collapseFrom_importance hvalid htail
  have hall : AllBlank (collapseFrom (rest.foldl next {}) blanks ++ kept) := by
    intro c hc
    rcases List.mem_append.mp hc with hc | hc
    · exact allBlank_collapseFrom_iff.mpr hblanks c hc
    · exact hkept c hc
  have hsplit : collapseChars (rest ++ (blanks ++ tail)) =
      collapseChars rest ++ (collapseFrom (rest.foldl next {}) blanks ++ kept) ++ ending := by
    unfold collapseChars
    rw [collapseFrom_append, collapseFrom_append, hcollapse]
    simp
  rw [hsplit, stripImportant?_append hending, trimEnd_append_of_allBlank hall,
    trimEnd_collapseChars hrest]

/-- Collapsing makes no `!important`. -/
theorem stripImportant?_collapseChars_eq_none {s : List Char} (h : stripImportant? s = none) :
    stripImportant? (collapseChars s) = none := by
  cases hstrip : stripImportant? (collapseChars s) with
  | none => rfl
  | some rest =>
    obtain ⟨-, gap, tail, heq, -, blanks, word, ending, rfl, hblanks, hending, hword⟩ :=
      exists_of_stripImportant? hstrip
    have hnoblank := noBlank_of_important hword
    cases word with
    | nil => cases hword
    | cons c word =>
      rw [← List.append_assoc] at heq
      obtain ⟨front, back, atMark, rfl, -, -, hvalid, hback⟩ :=
        exists_of_collapseFrom_eq valid_start (by decide) heq
      obtain ⟨inside, chars, atWord, rfl, hinside, hfresh, hvalid, hchars⟩ :=
        exists_of_collapseFrom_eq hvalid (hnoblank c List.mem_cons_self) hback
      obtain ⟨final, there, rfl, -, -, hfinal⟩ := exists_of_collapseFrom_eq_append hfresh hvalid
        (fun d hd => hnoblank d (List.mem_cons_of_mem _ hd)) hchars
      have hall : AllBlank final := by
        rw [← @allBlank_collapseFrom_iff there, hfinal]
        exact hending
      have himportance : IsImportance ('!' :: (inside ++ (c :: word ++ final))) :=
        ⟨inside, c :: word, final, rfl, hinside hblanks, hall, hword⟩
      have hsome : stripImportant? _ = some _ := stripImportant?_append himportance front
      rw [List.cons_append, h] at hsome
      cases hsome

theorem stripImportant?_trimEnd (s : List Char) : stripImportant? (trimEnd s) = stripImportant? s := by
  unfold stripImportant? trimEnd
  rw [List.reverse_reverse, List.dropWhile_idempotent]

/-! ## Declared values -/

/-- Two texts declare the same value, with the same importance. -/
def SameValue (text other : String) : Prop :=
  (splitImportant text).2 = (splitImportant other).2 ∧
    canonical (splitImportant text).1 = canonical (splitImportant other).1

theorem SameValue.refl (text : String) : SameValue text text :=
  ⟨rfl, rfl⟩

theorem SameValue.trans {text other third : String} (h : SameValue text other)
    (h' : SameValue other third) : SameValue text third :=
  ⟨h.1.trans h'.1, h.2.trans h'.2⟩

theorem canonical_collapse (value : String) : canonical (collapse value) = canonical value := by
  unfold canonical collapse
  rw [String.toList_ofList, collapseChars_collapseChars]

/-- A text declares what its collapsed text declares. -/
theorem sameValue_collapse (text : String) : SameValue (collapse text) text := by
  unfold SameValue splitImportant
  rw [collapse, String.toList_ofList]
  cases hstrip : stripImportant? text.toList with
  | none =>
    rw [stripImportant?_collapseChars_eq_none hstrip]
    exact ⟨rfl, canonical_collapse text⟩
  | some rest =>
    rw [stripImportant?_collapseChars hstrip]
    refine ⟨rfl, ?_⟩
    have hcollapse := canonical_collapse (String.ofList rest)
    rw [collapse, String.toList_ofList] at hcollapse
    exact hcollapse

/-- Texts that are collapsed to the same text declare the same. -/
theorem sameValue_of_collapse_eq {text other : String} (h : collapse text = collapse other) :
    SameValue text other := by
  have hvalue := sameValue_collapse text
  rw [h] at hvalue
  exact ⟨hvalue.1.symm.trans (sameValue_collapse other).1,
    hvalue.2.symm.trans (sameValue_collapse other).2⟩

/-- A text without the blanks at its end. -/
def trimmedEnd (text : String) : String :=
  String.ofList (trimEnd text.toList)

theorem allBlank_trimmedEnd_iff (text : String) :
    AllBlank (trimmedEnd text).toList ↔ AllBlank text.toList := by
  rw [trimmedEnd, String.toList_ofList, allBlank_trimEnd_iff]

/-- If a text leaves no quote open before the blanks at its end, these do not count. -/
theorem collapse_trimmedEnd_of_quote {text : String}
    (h : ((trimEnd text.toList).foldl next {}).quote = none) :
    collapse (trimmedEnd text) = collapse text := by
  obtain ⟨blanks, hblanks, htext⟩ := exists_eq_trimEnd_append text.toList
  unfold collapse trimmedEnd
  rw [String.toList_ofList]
  conv => rhs; rw [htext]
  unfold collapseChars
  rw [collapseFrom_append, collapseFrom_of_allBlank h hblanks, List.append_nil]

/-- A quote that the end of a text closes is not open before the blanks there. -/
theorem quote_foldl_next_trimEnd {s : List Char} (h : (s.foldl next {}).quote = none) :
    ((trimEnd s).foldl next {}).quote = none := by
  cases hopen : ((trimEnd s).foldl next {}).quote with
  | none => rfl
  | some q =>
    obtain ⟨blanks, hblanks, hs⟩ := exists_eq_trimEnd_append s
    have hq := (valid_start.foldl_next (trimEnd s)).isQuote q hopen
    have hkept := quote_foldl_next_of_allBlank hopen hq hblanks
    rw [← List.foldl_append, ← hs, h] at hkept
    cases hkept

end AtomicStyle.Css
