import AtomicStyle.Proofs.Quoting
import AtomicStyle.Proofs.WordOrder

/-!
# Canonical values

The canonical spelling of a value is found in two passes that read quotes in different ways: collapsing
knows escapes, taking the value apart into words does not.  Both are settled after the first time.

The first one, because a text is collapsed iff every blank outside quotes is a space behind a character
that is not blank, and none stands at the end (`CollapsedFrom`).  The spelling changes words without
blanks into such words, and the blanks between two words into one space.  That keeps what the reader of
quotes knows, and the character before the space is not blank.  The second one, because where two words
are separated nothing is open, and the spelling of a word opens nothing.

Results:
1. `collapseFrom_of_collapsed`, `collapsed_collapseFrom`: the collapsed texts.
2. `sound_segments`: words before a separator open nothing that they do not close.
3. `wordMarksFrom_joined`: the words of a canonical value.
4. `collapsed_joined`: a canonical value is collapsed.
5. `canonical_canonical`: the canonical spelling of a canonical value.
-/

namespace AtomicStyle.Css

open AtomicStyle.Text

/-! ## Collapsed texts -/

/-- The rest of a collapsed text, given the open quote and the character before it. -/
inductive CollapsedFrom : QuoteState → Option Char → List Char → Prop where
  | nil {state : QuoteState} {before : Option Char}
      (hend : state = none → before.all (!isBlank ·) = true) : CollapsedFrom state before []
  | cons {state : QuoteState} {before : Option Char} {c : Char} {rest : List Char}
      (hblank : state = none → isBlank c = true → c = ' ' ∧ before.any (!isBlank ·) = true)
      (hrest : CollapsedFrom (quoteStep state c) (some c) rest) :
      CollapsedFrom state before (c :: rest)

theorem collapsedFrom_nil_iff {state : QuoteState} {before : Option Char} :
    CollapsedFrom state before [] ↔ (state = none → before.all (!isBlank ·) = true) :=
  ⟨fun h => by cases h with | nil hend => exact hend, .nil⟩

theorem collapsedFrom_cons_iff {state : QuoteState} {before : Option Char} {c : Char}
    {rest : List Char} : CollapsedFrom state before (c :: rest) ↔
      (state = none → isBlank c = true → c = ' ' ∧ before.any (!isBlank ·) = true) ∧
        CollapsedFrom (quoteStep state c) (some c) rest :=
  ⟨fun h => by cases h with | cons hblank hrest => exact ⟨hblank, hrest⟩, fun h => .cons h.1 h.2⟩

theorem getLast?_cons_or (c : Char) (s : List Char) (before : Option Char) :
    (c :: s).getLast?.or before = s.getLast?.or (some c) := by
  rw [List.getLast?_cons]
  cases s.getLast? <;> rfl

namespace CollapsedFrom

variable {state : QuoteState} {before : Option Char} {s t t' : List Char}

/-- The rest of a collapsed text behind a part of it. -/
theorem drop (h : CollapsedFrom state before (s ++ t)) :
    CollapsedFrom (s.foldl quoteStep state) (s.getLast?.or before) t := by
  induction s generalizing state before with
  | nil => exact h
  | cons c s ih =>
    rw [getLast?_cons_or]
    exact ih (collapsedFrom_cons_iff.mp h).2

/-- Behind a part of a collapsed text, another rest may follow. -/
theorem append (h : CollapsedFrom state before (s ++ t))
    (hrest : CollapsedFrom (s.foldl quoteStep state) (s.getLast?.or before) t') :
    CollapsedFrom state before (s ++ t') := by
  induction s generalizing state before with
  | nil => exact hrest
  | cons c s ih =>
    rw [getLast?_cons_or] at hrest
    obtain ⟨hblank, hs⟩ := collapsedFrom_cons_iff.mp h
    exact .cons hblank (ih hs hrest)

/-- Characters that are not blank may stand anywhere. -/
theorem of_noBlank (hs : NoBlank s)
    (hrest : CollapsedFrom (s.foldl quoteStep state) (s.getLast?.or before) t) :
    CollapsedFrom state before (s ++ t) := by
  induction s generalizing state before with
  | nil => exact hrest
  | cons c s ih =>
    obtain ⟨hc, hs⟩ := List.forall_mem_cons.mp hs
    rw [getLast?_cons_or] at hrest
    exact .cons (fun _ hblank => by simp [hc] at hblank) (ih hs hrest)

/-- Of the character before, only whether it is blank matters. -/
theorem of_before {before' : Option Char} (h : CollapsedFrom state before s)
    (hbefore : before.map isBlank = before'.map isBlank) : CollapsedFrom state before' s := by
  have hall : before.all (!isBlank ·) = before'.all (!isBlank ·) := by
    simpa [Option.all_map, Function.comp_def] using congrArg (Option.all (!·)) hbefore
  have hany : before.any (!isBlank ·) = before'.any (!isBlank ·) := by
    simpa [Option.any_map, Function.comp_def] using congrArg (Option.any (!·)) hbefore
  cases h with
  | nil hend => exact .nil (hall ▸ hend)
  | cons hblank hrest => exact .cons (hany ▸ hblank) hrest

end CollapsedFrom

namespace CollapseState

/-- A state knows whether a character was kept; outside quotes it is not blank. -/
structure Behind (state : CollapseState) (before : Option Char) : Prop where
  valid : state.Valid
  started : state.started = before.isSome
  notBlank : state.quoteState = none → before.all (!isBlank ·) = true

variable {state : CollapseState} {before : Option Char} {c : Char}

theorem quoteState_eq_none_iff : state.quoteState = none ↔ state.quote = none :=
  Option.map_eq_none_iff

/-- A kept character that is not blank, or that stands inside quotes, is the one before the rest. -/
theorem Behind.keep (h : state.Behind before)
    (hc : isBlank c = true → ∃ q, state.quote = some q) : (state.next c).Behind (some c) where
  valid := h.valid.next c
  started := by
    obtain ⟨q, hquote, -, hnext⟩ | ⟨hquote, hblank, -, -⟩ | ⟨-, -, -, hnext⟩ := state.step_cases c
    · rw [hnext]
      exact (fresh_quotedStep.mpr (h.valid.fresh q hquote)).1
    · obtain ⟨q, hq⟩ := hc hblank
      rw [hq] at hquote
      cases hquote
    · rw [hnext]
      rfl
  notBlank := by
    intro hnone
    cases hblank : isBlank c with
    | false => simp [hblank]
    | true =>
      -- A blank ends no quotes.
      obtain ⟨q, hq⟩ := hc hblank
      have hblanks : AllBlank [c] := by simpa [AllBlank] using hblank
      have hopen := quote_foldl_next_of_allBlank hq (h.valid.isQuote q hq) hblanks
      rw [quoteState_eq_none_iff] at hnone
      rw [List.foldl_cons, List.foldl_nil, hnone] at hopen
      cases hopen

theorem Behind.skip (h : state.Behind before) (hquote : state.quote = none) :
    Behind { state with gap := state.started } before where
  valid := by
    refine ⟨h.valid.isQuote, fun q hq => ?_, id⟩
    rw [show state.quote = some q from hq] at hquote
    cases hquote
  started := h.started
  notBlank := h.notBlank

theorem behind_start : Behind {} none where
  valid := valid_start
  started := rfl
  notBlank := fun _ => rfl

end CollapseState

open CollapseState

/-- What collapsing gives is a collapsed text. -/
theorem collapsed_collapseFrom {state : CollapseState} {before : Option Char}
    (h : state.Behind before) (s : List Char) :
    CollapsedFrom state.quoteState before (collapseFrom state s) := by
  induction s generalizing state before with
  | nil => exact .nil h.notBlank
  | cons c s ih =>
    rw [collapseFrom_cons]
    obtain ⟨q, hquote, hemit, -⟩ | ⟨hquote, -, hemit, hnext⟩ | ⟨hquote, hblank, hemit, -⟩ :=
      state.step_cases c
    · rw [hemit]
      refine .cons (fun hnone => ?_) (quoteState_next state c ▸ ih (h.keep fun _ => ⟨q, hquote⟩))
      rw [quoteState_eq_none_iff, hquote] at hnone
      cases hnone
    · rw [hemit, hnext]
      exact ih (h.skip hquote)
    · have hkept : ∀ other, CollapsedFrom state.quoteState other (c :: collapseFrom (state.next c) s) :=
        fun other => .cons (fun _ hc => by simp [hblank] at hc)
          (quoteState_next state c ▸ ih (h.keep fun hc => by simp [hblank] at hc))
      rw [hemit]
      split
      · next hgap =>
        have hnone := quoteState_eq_none_iff.mpr hquote
        have hstarted := h.valid.started hgap
        rw [h.started] at hstarted
        obtain ⟨b, rfl⟩ := Option.isSome_iff_exists.mp hstarted
        have hspace : quoteStep state.quoteState ' ' = state.quoteState := by
          rw [hnone]
          rfl
        refine .cons (fun _ _ => ⟨rfl, h.notBlank hnone⟩) ?_
        rw [hspace]
        exact hkept (some ' ')
      · exact hkept before

/-- A collapsed text stays as it is.  A space outside quotes is left out at first and put back before
the next character, so it is still owed behind it. -/
theorem collapseFrom_of_collapsed {state : CollapseState} {before : Option Char}
    (h : state.Behind before) {s : List Char}
    (hs : CollapsedFrom state.quoteState (if state.gap then some ' ' else before) s) :
    collapseFrom state s = (if state.gap then [' '] else []) ++ s := by
  have hspace : isBlank ' ' = true := by decide
  induction s generalizing state before with
  | nil =>
    cases hgap : state.gap with
    | false => rfl
    | true =>
      have hquote : state.quoteState = none := by
        rw [quoteState_eq_none_iff]
        cases hquote : state.quote with
        | none => rfl
        | some q =>
          rw [(h.valid.fresh q hquote).2] at hgap
          cases hgap
      simpa [hgap, hspace] using collapsedFrom_nil_iff.mp hs hquote
  | cons c s ih =>
    obtain ⟨hhere, hrest⟩ := collapsedFrom_cons_iff.mp hs
    rw [← quoteState_next] at hrest
    rw [collapseFrom_cons]
    obtain ⟨q, hquote, hemit, hnext⟩ | ⟨hquote, hblank, hemit, hnext⟩ | ⟨hquote, hblank, hemit, hnext⟩ :=
      state.step_cases c
    · have hfresh := h.valid.fresh q hquote
      have hgap : (state.next c).gap = false := by
        rw [hnext]
        exact (fresh_quotedStep.mpr hfresh).2
      have hkept := ih (h.keep fun _ => ⟨q, hquote⟩) (by rwa [hgap])
      rw [hemit, hkept, hgap, hfresh.2]
      rfl
    · obtain ⟨rfl, hbefore⟩ := hhere (quoteState_eq_none_iff.mpr hquote) hblank
      have hgap : state.gap = false := by
        cases hgap : state.gap with
        | false => rfl
        | true => simp [hgap, hspace] at hbefore
      have hstarted : state.started = true := by
        rw [h.started]
        cases before with
        | none => simp [hgap] at hbefore
        | some b => rfl
      rw [hnext] at hrest
      have hkept := @ih { state with gap := state.started } before (h.skip hquote) (by
        rw [hstarted]
        exact hrest)
      rw [hemit, hnext, hkept, hstarted, hgap]
      rfl
    · have hgap : (state.next c).gap = false := (h.valid.fresh_next hblank).2
      have hkept := ih (h.keep fun hc => absurd (hblank.symm.trans hc) Bool.false_ne_true)
        (by rwa [hgap])
      rw [hemit, hkept, hgap]
      simp

theorem collapseChars_eq_self {s : List Char} (h : CollapsedFrom none none s) : collapseChars s = s :=
  collapseFrom_of_collapsed behind_start h

/-! ## Words and what they open -/

/-- Where nothing is open, blanks separate words, and nothing is opened. -/
theorem wordMarksFrom_blanks {blanks : List Char} (h : AllBlank blanks) (s : List Char) :
    wordMarksFrom 0 none (blanks ++ s) = blanks.map (·, true) ++ wordMarksFrom 0 none s := by
  induction blanks with
  | nil => rfl
  | cons c blanks ih =>
    obtain ⟨hc, hblanks⟩ := allBlank_cons.mp h
    rw [List.cons_append, wordMarksFrom, hc, ih hblanks]
    rfl

/-- What is open is a quote. -/
theorem isQuote_foldl_wordNext {state : Int × Option Char} (h : ∀ q ∈ state.2, isQuote q = true)
    (s : List Char) : ∀ q ∈ (s.foldl wordNext state).2, isQuote q = true := by
  induction s generalizing state with
  | nil => exact h
  | cons c s ih =>
    refine ih fun q hq => ?_
    obtain ⟨depth, quote⟩ := state
    cases quote with
    | some r =>
      simp only [wordNext] at hq
      split at hq
      · cases hq
      · exact h q hq
    | none =>
      simp only [wordNext] at hq
      split at hq
      · next hc =>
        cases hq
        exact hc
      · split at hq
        · cases hq
        · split at hq <;> cases hq

/-- A blank opens and closes nothing. -/
theorem wordNext_of_isBlank {state : Int × Option Char} (h : ∀ q ∈ state.2, isQuote q = true)
    {c : Char} (hc : isBlank c = true) : wordNext state c = state := by
  have hquote := isQuote_of_isBlank hc
  obtain ⟨depth, quote⟩ := state
  cases quote with
  | some q =>
    have hne : c ≠ q := by
      rintro rfl
      rw [h c rfl] at hquote
      cases hquote
    simp [wordNext, hne]
  | none =>
    have hopening : c ≠ '(' := fun heq => absurd (heq ▸ hc) (by decide)
    have hclosing : c ≠ ')' := fun heq => absurd (heq ▸ hc) (by decide)
    simp [wordNext, hquote, hopening, hclosing]

namespace Segment

/-- The word is one word where nothing is open, and if a separator follows it leaves nothing open. -/
structure Sound (segment : Segment) : Prop where
  marks : wordMarksFrom 0 none segment.word = segment.word.map (·, false)
  closed : segment.gap ≠ [] → segment.word.foldl wordNext (0, none) = (0, none)

variable {segment : Segment}

/-- A blank at the end of a word stands inside quotes or parentheses, so no separator follows. -/
theorem Sound.getLast (h : segment.Sound) (hgap : segment.gap ≠ []) {c : Char}
    (hlast : segment.word.getLast? = some c) : isBlank c = false := by
  obtain ⟨front, hword⟩ := List.getLast?_eq_some_iff.mp hlast
  have hmarks := h.marks
  rw [hword, wordMarksFrom_append (0, none) front [c], List.map_append] at hmarks
  cases hblank : isBlank c with
  | false => rfl
  | true =>
    have hopen := @isQuote_foldl_wordNext (0, none) (by simp) front
    have hclosed := h.closed hgap
    rw [hword, List.foldl_append, List.foldl_cons, List.foldl_nil, wordNext_of_isBlank hopen hblank]
      at hclosed
    have hend := (List.append_inj' hmarks (by rw [hclosed, wordMarksFrom, hblank]; rfl)).2
    rw [hclosed, wordMarksFrom, hblank] at hend
    simp at hend

/-- The first word of marked segments, and the separators behind it. -/
theorem sound_of_marks {rest : List Segment} (hblank : AllBlank segment.gap)
    (hgap : rest ≠ [] → segment.gap ≠ [])
    (h : wordMarksFrom 0 none ((segment :: rest).flatMap text) = (segment :: rest).flatMap marks) :
    segment.Sound ∧ wordMarksFrom 0 none (rest.flatMap text) = rest.flatMap marks := by
  rw [List.flatMap_cons, List.flatMap_cons, text, Segment.marks, List.append_assoc, List.append_assoc,
    wordMarksFrom_append (0, none)] at h
  obtain ⟨hword, hafter⟩ := List.append_inj h (by rw [length_wordMarksFrom, List.length_map])
  have hclosed : segment.gap ≠ [] → segment.word.foldl wordNext (0, none) = (0, none) := by
    intro hne
    obtain ⟨c, gap, heq⟩ := List.exists_cons_of_ne_nil hne
    rw [heq] at hafter
    exact wordMarksFrom_true hafter
  refine ⟨⟨hword, hclosed⟩, ?_⟩
  by_cases hrest : rest = []
  · rw [hrest]
    rfl
  · rw [hclosed (hgap hrest), wordMarksFrom_blanks hblank] at hafter
    exact List.append_cancel_left hafter

end Segment

/-- Words open nothing that they do not close, but the last one. -/
theorem sound_segments (s : List Char) : ∀ segment ∈ segments s, segment.Sound := by
  have hall : ∀ {segs : List Segment}, Spaced segs →
      wordMarksFrom 0 none (segs.flatMap Segment.text) = segs.flatMap Segment.marks →
      ∀ segment ∈ segs, segment.Sound := by
    intro segs hspaced hmarks
    induction segs with
    | nil => simp
    | cons first rest ih =>
      obtain ⟨hfirst, hrest⟩ := Segment.sound_of_marks (hspaced.blank first List.mem_cons_self)
        hspaced.gap_ne_nil hmarks
      exact List.forall_mem_cons.mpr ⟨hfirst, ih hspaced.tail hrest⟩
  obtain ⟨lead, hlead, hmarks⟩ := exists_lead s
  refine hall (spaced_segments s) ?_
  have htext := eq_of_marks hmarks
  generalize segments s = segs at hmarks htext
  rw [htext, wordMarksFrom_blanks hlead] at hmarks
  exact List.append_cancel_left hmarks

/-! ## Words of canonical values -/

theorem spelling_eq (word : List Char) :
    spelling word = word ∨ spelling word = "currentColor".toList := by
  unfold spelling canonicalWord
  dsimp only
  split
  · exact .inr rfl
  · exact .inl String.toList_ofList

theorem spelling_spelling (word : List Char) : spelling (spelling word) = spelling word := by
  rcases spelling_eq word with h | h
  · rw [h, h]
  · rw [h]
    decide +kernel

theorem spelling_ne_nil (segment : Segment) : spelling segment.word ≠ [] := by
  rcases spelling_eq segment.word with h | h
  · rw [h]
    exact segment.ne_nil
  · rw [h]
    decide

/-- A word in standard spelling with other separators. -/
def Segment.respell (segment : Segment) (gap : List Char) : Segment :=
  ⟨spelling segment.word, gap, spelling_ne_nil segment⟩

theorem Segment.word_respell (segment : Segment) (gap : List Char) :
    (segment.respell gap).word = spelling segment.word := by
  rw [respell]

theorem Segment.gap_respell (segment : Segment) (gap : List Char) : (segment.respell gap).gap = gap := by
  rw [respell]

/-- The segments of the canonical spelling: respelled words and single spaces. -/
def respelled : List Segment → List Segment
  | [] => []
  | segment :: rest => segment.respell (joint rest) :: respelled rest

theorem isEmpty_respelled (segs : List Segment) : (respelled segs).isEmpty = segs.isEmpty := by
  cases segs with
  | nil => rfl
  | cons segment rest => rw [respelled, List.isEmpty_cons, List.isEmpty_cons]

theorem map_word_respelled (segs : List Segment) :
    (respelled segs).map Segment.word = segs.map fun segment => spelling segment.word := by
  induction segs with
  | nil => rw [respelled, List.map_nil, List.map_nil]
  | cons segment rest ih =>
    simp only [respelled, List.map_cons, ih, Segment.word_respell]

theorem joined_respelled (segs : List Segment) : joined (respelled segs) = joined segs := by
  induction segs with
  | nil => rfl
  | cons segment rest ih =>
    rw [respelled, joined, Segment.word_respell, spelling_spelling, ih, joint, isEmpty_respelled, joined,
      joint]

/-- The canonical spelling depends on the words only. -/
theorem joined_congr {segs segs' : List Segment} (h : segs.map Segment.word = segs'.map Segment.word) :
    joined segs = joined segs' := by
  induction segs generalizing segs' with
  | nil =>
    rw [List.map_nil, eq_comm, List.map_eq_nil_iff] at h
    rw [h]
  | cons segment rest ih =>
    cases segs' with
    | nil => cases h
    | cons segment' rest' =>
      obtain ⟨hword, hrest⟩ := List.cons.inj h
      have hjoint : joint rest = joint rest' := by
        have hempty := congrArg List.isEmpty hrest
        rw [List.isEmpty_map, List.isEmpty_map] at hempty
        rw [joint, hempty, joint]
      rw [joined, joined, ih hrest, hjoint, hword]

theorem isChain_respelled (segs : List Segment) :
    (respelled segs).IsChain fun segment _ => segment.gap ≠ [] := by
  induction segs with
  | nil => exact .nil
  | cons segment rest ih =>
    cases rest with
    | nil => exact .singleton _
    | cons next rest =>
      have hgap : joint (next :: rest) ≠ [] := List.cons_ne_nil _ _
      exact List.isChain_cons_cons.mpr ⟨hgap, ih⟩

section Spelled

variable {segment : Segment} (h : segment.Sound)

include h

theorem Segment.Sound.marks_spelling :
    wordMarksFrom 0 none (spelling segment.word) = (spelling segment.word).map (·, false) := by
  rcases spelling_eq segment.word with heq | heq
  · rw [heq]
    exact h.marks
  · rw [heq]
    decide +kernel

theorem Segment.Sound.closed_spelling (hgap : segment.gap ≠ []) :
    (spelling segment.word).foldl wordNext (0, none) = (0, none) := by
  rcases spelling_eq segment.word with heq | heq
  · rw [heq]
    exact h.closed hgap
  · rw [heq]
    decide +kernel

end Spelled

/-- The canonical spelling has the respelled words, and one space separates two of them. -/
theorem wordMarksFrom_joined {segs : List Segment} (hspaced : Spaced segs)
    (hsound : ∀ segment ∈ segs, segment.Sound) :
    wordMarksFrom 0 none (joined segs) = (respelled segs).flatMap Segment.marks := by
  induction segs with
  | nil => rfl
  | cons segment rest ih =>
    obtain ⟨hsegment, hrest⟩ := List.forall_mem_cons.mp hsound
    have hword := hsegment.marks_spelling
    have hclosed := fun hne => hsegment.closed_spelling (hspaced.gap_ne_nil hne)
    rw [respelled, List.flatMap_cons, Segment.marks, List.append_assoc, joined, Segment.word_respell,
      Segment.gap_respell]
    generalize spelling segment.word = word at hword hclosed ⊢
    have hsplit := wordMarksFrom_append (0, none) word (joint rest ++ joined rest)
    rw [hword] at hsplit
    refine hsplit.trans (congrArg (word.map (·, false) ++ ·) ?_)
    by_cases hne : rest = []
    · rw [hne]
      rfl
    · have hjoint : joint rest = [' '] := if_neg (by simpa using hne)
      have hblank : AllBlank [' '] := by simpa [AllBlank] using (by decide : isBlank ' ' = true)
      rw [hclosed hne, hjoint, wordMarksFrom_blanks hblank, ih hspaced.tail hrest]

theorem wordChars_joined {segs : List Segment} (hspaced : Spaced segs)
    (hsound : ∀ segment ∈ segs, segment.Sound) :
    wordChars (joined segs) = (respelled segs).map Segment.word := by
  rw [wordChars, wordMarksFrom_joined hspaced hsound, ← markedWords,
    markedWords_segments (isChain_respelled segs)]

/-! ## Blanks of canonical values -/

theorem noBlank_color : NoBlank "currentColor".toList :=
  List.all_iff_forall_prop.mp (by decide)

/-- The spelling of a word may stand for the word, if what follows may. -/
theorem collapsed_spelling {segment : Segment} {state : QuoteState} (hstate : state.Sound)
    {before : Option Char} {rest rest' : List Char}
    (h : CollapsedFrom state before (segment.word ++ rest))
    (hrest : ∀ before, before.any (!isBlank ·) = true ∨ before = segment.word.getLast? →
      CollapsedFrom (segment.word.foldl quoteStep state) before rest') :
    CollapsedFrom state before (spelling segment.word ++ rest') := by
  have hfold := foldl_spelling hstate segment
  have hlast : ∀ {s : List Char}, s ≠ [] → s.getLast?.or before = s.getLast? := by
    intro s hs
    rw [List.getLast?_eq_some_getLast hs]
    rfl
  rcases spelling_eq segment.word with heq | heq
  · rw [heq]
    exact h.append (hrest _ (.inr (hlast segment.ne_nil)))
  · rw [heq] at hfold ⊢
    refine CollapsedFrom.of_noBlank noBlank_color ?_
    rw [hfold, hlast (by decide)]
    exact hrest _ (.inl (by decide))

/-- The canonical spelling of a collapsed text is collapsed.  Between two words the reader of quotes
knows the same behind the blanks and behind the space. -/
theorem collapsed_joined {segs : List Segment} (hspaced : Spaced segs)
    (hsound : ∀ segment ∈ segs, segment.Sound) {state : QuoteState} (hstate : state.Sound)
    {before : Option Char} (h : CollapsedFrom state before (segs.flatMap Segment.text)) :
    CollapsedFrom state before (joined segs) := by
  induction segs generalizing state before with
  | nil => exact h
  | cons segment rest ih =>
    rw [List.flatMap_cons, Segment.text, List.append_assoc] at h
    rw [joined]
    refine collapsed_spelling hstate h fun last hlast => ?_
    have hsegment := hsound segment List.mem_cons_self
    have hrest := fun other hother => hsound other (List.mem_cons_of_mem _ hother)
    have hbehind := CollapsedFrom.drop (s := segment.word) h
    have hnotBlank : segment.gap ≠ [] → last.any (!isBlank ·) = true := by
      intro hgap
      rcases hlast with hlast | rfl
      · exact hlast
      · rw [List.getLast?_eq_some_getLast segment.ne_nil, Option.any_some, Bool.not_eq_true']
        exact hsegment.getLast hgap (List.getLast?_eq_some_getLast segment.ne_nil)
    have hstate' := hstate.foldl segment.word
    generalize segment.word.foldl quoteStep state = state' at hbehind hstate' ⊢
    by_cases hne : rest = []
    · rw [hne]
      refine .nil fun hnone => ?_
      have hall : last.any (!isBlank ·) = true → last.all (!isBlank ·) = true := by
        cases last <;> simp
      rcases hlast with hlast | rfl
      · exact hall hlast
      · by_cases hgap : segment.gap = []
        · rw [hgap, hne] at hbehind
          have hend := collapsedFrom_nil_iff.mp hbehind hnone
          rwa [List.getLast?_eq_some_getLast segment.ne_nil] at hend ⊢
        · exact hall (hnotBlank hgap)
    · have hgap := hspaced.gap_ne_nil hne
      have hblank := hspaced.blank segment List.mem_cons_self
      have hjoint : joint rest = [' '] := if_neg (by simpa using hne)
      have hspaces : AllBlank [' '] := by simpa [AllBlank] using (by decide : isBlank ' ' = true)
      have hafter := hbehind.drop
      rw [foldl_eq_of_unquoted hstate' (unquoted_of_allBlank hblank) (unquoted_of_allBlank hspaces) hgap
        (List.cons_ne_nil _ _), List.getLast?_eq_some_getLast hgap] at hafter
      rw [hjoint]
      refine .cons (fun _ _ => ⟨rfl, hnotBlank hgap⟩) (ih hspaced.tail hrest (hstate'.step ' ') ?_)
      exact hafter.of_before (congrArg some (hblank _ (List.getLast_mem hgap)))

/-- The segments of a collapsed text, with nothing before them, are a collapsed text. -/
theorem collapsed_segments (s : List Char) :
    CollapsedFrom none none ((segments (collapseChars s)).flatMap Segment.text) := by
  have hcollapsed : CollapsedFrom none none (collapseChars s) :=
    collapsed_collapseFrom behind_start s
  obtain ⟨lead, hlead, hmarks⟩ := exists_lead (collapseChars s)
  have htext := eq_of_marks hmarks
  generalize segments (collapseChars s) = segs at htext
  rw [htext] at hcollapsed
  cases lead with
  | nil => exact hcollapsed
  | cons c lead =>
    obtain ⟨hblank, -⟩ := collapsedFrom_cons_iff.mp hcollapsed
    cases (hblank rfl (hlead c List.mem_cons_self)).2

theorem map_ofList_respelled (segs : List Segment) :
    ((respelled segs).map Segment.word).map String.ofList =
      ((segs.map Segment.word).map String.ofList).map canonicalWord := by
  rw [map_word_respelled, List.map_map, List.map_map, List.map_map]
  refine List.map_congr_left fun segment _ => ?_
  simp only [Function.comp_apply, spelling, String.ofList_toList]

/-- A canonical value is collapsed, and its words are those of the value in standard spelling.  So its
canonical spelling is the value itself: one pass is enough, also where the two readers of quotes
disagree. -/
theorem canonical_canonical (value : String) :
    canonical (canonical value) = canonical value ∧
      collapse (canonical value) = canonical value ∧
      words (canonical value) = (words (collapse value)).map canonicalWord := by
  have htext := toList_canonical value
  have hchars : (collapse value).toList = collapseChars value.toList := String.toList_ofList
  have hspaced := spaced_segments (collapse value).toList
  have hsound := sound_segments (collapse value).toList
  have hsegments := collapsed_segments value.toList
  rw [← hchars] at hsegments
  have hcollapse : collapse (canonical value) = canonical value := by
    rw [collapse, htext,
      collapseChars_eq_self (collapsed_joined hspaced hsound QuoteState.sound_none hsegments), ← htext,
      String.ofList_toList]
  have hwords : wordChars (canonical value).toList =
      (respelled (segments (collapse value).toList)).map Segment.word := by
    rw [htext, wordChars_joined hspaced hsound]
  refine ⟨?_, hcollapse, ?_⟩
  · have hagain : joined (segments (canonical value).toList) =
        joined (respelled (segments (collapse value).toList)) :=
      joined_congr ((wordChars_eq _).symm.trans hwords)
    rw [← String.toList_inj, toList_canonical, hcollapse, hagain, joined_respelled, htext]
  · rw [words, hwords, map_ofList_respelled, words, wordChars_eq]

end AtomicStyle.Css
