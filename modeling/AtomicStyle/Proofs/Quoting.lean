import AtomicStyle.Proofs.Segments

/-!
# Quoted texts of values

The quoted texts of a value, as they are read where blanks are collapsed: a backslash inside quotes
escapes the character after it.  Where a value is taken apart into words, a backslash means nothing, so
an escaped quote ends the quoted text there, and the rest of it may be spelled anew.

Results:
1. `quotedTexts_eq_iff`: quoted texts are given by the characters that belong to them (`inside`).
2. `inside_collapseChars`: collapsing leaves them alone.
3. `insideFrom_joined_iff`: the canonical spellings that leave them alone.
4. `quotedTexts_canonical_iff`: the same for the quoted texts of a value.
-/

namespace AtomicStyle.Css

open AtomicStyle.Text

/-! ## Quotes -/

/-- The quote that is open, if there is one, and whether the last character was a backslash that
escapes the next one. -/
abbrev QuoteState := Option (Char × Bool)

/-- The state after one more character. -/
def quoteStep : QuoteState → Char → QuoteState
  | none, c => if isQuote c then some (c, false) else none
  | some (q, true), _ => some (q, false)
  | some (q, false), c =>
    if c == '\\' then some (q, true) else if c == q then none else some (q, false)

/-- Inside quotes, a character either ends them, or the same quote stays open. -/
theorem quoteStep_some_cases (q : Char) (escaped : Bool) (c : Char) :
    (quoteStep (some (q, escaped)) c = none ∧ c = q) ∨
      ∃ next, quoteStep (some (q, escaped)) c = some (q, next) := by
  cases escaped with
  | true => exact Or.inr ⟨false, rfl⟩
  | false =>
    rw [quoteStep]
    split
    · exact Or.inr ⟨true, rfl⟩
    · split
      · next hc => exact Or.inl ⟨rfl, beq_iff_eq.mp hc⟩
      · exact Or.inr ⟨false, rfl⟩

/-- The characters that belong to quoted texts, quotes included. -/
def insideFrom (state : QuoteState) : List Char → List Char
  | [] => []
  | c :: rest =>
    (if state.isSome || (quoteStep state c).isSome then [c] else []) ++
      insideFrom (quoteStep state c) rest

def inside (s : List Char) : List Char :=
  insideFrom none s

theorem insideFrom_append (state : QuoteState) (s t : List Char) :
    insideFrom state (s ++ t) = insideFrom state s ++ insideFrom (s.foldl quoteStep state) t := by
  induction s generalizing state with
  | nil => rfl
  | cons c s ih =>
    rw [List.cons_append, insideFrom, ih, insideFrom, List.append_assoc]
    rfl

/-! ## Quoted texts -/

/-- A quoted text: its quote, what stands in it, and whether it ends. -/
structure QuotedText where
  quote : Char
  body : List Char
  closed : Bool
deriving DecidableEq, Repr

def QuotedText.text (quoted : QuotedText) : List Char :=
  quoted.quote :: (quoted.body ++ if quoted.closed then [quoted.quote] else [])

/-- The quoted texts of a value, in order; the characters of the open one so far are given last one
first. -/
def quotedTextsFrom : QuoteState → List Char → List Char → List QuotedText
  | none, _, [] => []
  | some (q, _), soFar, [] => [⟨q, soFar.reverse, false⟩]
  | none, _, c :: rest => quotedTextsFrom (quoteStep none c) [] rest
  | some (q, escaped), soFar, c :: rest =>
    if (quoteStep (some (q, escaped)) c).isSome then
      quotedTextsFrom (quoteStep (some (q, escaped)) c) (c :: soFar) rest
    else ⟨q, soFar.reverse, true⟩ :: quotedTextsFrom none [] rest

/-- The quoted texts of a value; the last one may not end. -/
def quotedTexts (s : List Char) : List QuotedText :=
  quotedTextsFrom none [] s

theorem quotedTextsFrom_none (soFar s : List Char) :
    quotedTextsFrom none soFar s = quotedTexts s := by
  unfold quotedTexts
  cases s with
  | nil => rw [quotedTextsFrom, quotedTextsFrom]
  | cons c rest => rw [quotedTextsFrom, quotedTextsFrom]

theorem insideFrom_some (q : Char) (escaped : Bool) (c : Char) (rest : List Char) :
    insideFrom (some (q, escaped)) (c :: rest) =
      c :: insideFrom (quoteStep (some (q, escaped)) c) rest :=
  rfl

/-- Outside of quotes, only a quote belongs to a quoted text. -/
theorem insideFrom_none (c : Char) (rest : List Char) :
    insideFrom none (c :: rest) = if isQuote c then c :: insideFrom (some (c, false)) rest
      else insideFrom none rest := by
  rw [insideFrom, quoteStep]
  cases isQuote c <;> rfl

/-- What is outside of quoted texts has no influence on them. -/
theorem quotedTextsFrom_insideFrom (state : QuoteState) (soFar s : List Char) :
    quotedTextsFrom state soFar (insideFrom state s) = quotedTextsFrom state soFar s := by
  induction s generalizing state soFar with
  | nil => rfl
  | cons c rest ih =>
    cases state with
    | none =>
      rw [insideFrom_none]
      cases hc : isQuote c with
      | true =>
        rw [if_pos rfl, quotedTextsFrom, quotedTextsFrom, quoteStep, hc]
        exact ih _ []
      | false =>
        rw [if_neg Bool.false_ne_true, quotedTextsFrom_none, quotedTextsFrom, quoteStep, hc]
        exact ih none []
    | some started =>
      obtain ⟨q, escaped⟩ := started
      rw [insideFrom_some, quotedTextsFrom, quotedTextsFrom]
      cases hnext : quoteStep (some (q, escaped)) c with
      | none => exact congrArg (List.cons _) (ih none [])
      | some next => exact ih (some next) (c :: soFar)

/-- The characters of the quoted text that is open. -/
def pendingText (soFar : List Char) : QuoteState → List Char
  | none => []
  | some (q, _) => q :: soFar.reverse

theorem flatMap_text_quotedTextsFrom (state : QuoteState) (soFar s : List Char) :
    (quotedTextsFrom state soFar s).flatMap QuotedText.text =
      pendingText soFar state ++ insideFrom state s := by
  induction s generalizing state soFar with
  | nil =>
    cases state with
    | none => rfl
    | some started => simp [quotedTextsFrom, QuotedText.text, pendingText, insideFrom]
  | cons c rest ih =>
    cases state with
    | none =>
      rw [insideFrom_none, quotedTextsFrom, ih, quoteStep]
      cases isQuote c <;> rfl
    | some started =>
      obtain ⟨q, escaped⟩ := started
      rw [insideFrom_some, quotedTextsFrom]
      obtain ⟨hnone, rfl⟩ | ⟨next, hsome⟩ := quoteStep_some_cases q escaped c
      · rw [hnone, if_neg (by simp), List.flatMap_cons, ih]
        simp [QuotedText.text, pendingText]
      · rw [hsome, Option.isSome_some, if_pos rfl, ih]
        simp [pendingText]

/-- Two texts have the same quoted texts just if the characters that belong to them are the same. -/
theorem quotedTexts_eq_iff {s t : List Char} : quotedTexts s = quotedTexts t ↔ inside s = inside t := by
  have htext : ∀ s, (quotedTexts s).flatMap QuotedText.text = inside s :=
    flatMap_text_quotedTextsFrom none []
  have hinside : ∀ s, quotedTexts (inside s) = quotedTexts s := quotedTextsFrom_insideFrom none []
  constructor
  · intro h
    rw [← htext s, ← htext t, h]
  · intro h
    rw [← hinside s, ← hinside t, h]

/-! ## Collapsing -/

/-- What a state of collapsing says about quotes. -/
def CollapseState.quoteState (state : CollapseState) : QuoteState :=
  state.quote.map (·, state.escaped)

theorem isQuote_of_isBlank {c : Char} (h : isBlank c = true) : isQuote c = false := by
  refine Bool.eq_false_iff.mpr fun hc => ?_
  rw [isBlank_of_isQuote hc] at h
  cases h

/-- Collapsing reads quotes as `quoteStep` says. -/
theorem quoteState_next (state : CollapseState) (c : Char) :
    (state.next c).quoteState = quoteStep state.quoteState c := by
  unfold CollapseState.quoteState
  obtain ⟨q, hq, -, hnext⟩ | ⟨hq, hc, -, hnext⟩ | ⟨hq, hc, -, hnext⟩ := state.step_cases c
  · rw [hnext, hq, CollapseState.quotedStep]
    cases hescaped : state.escaped with
    | true => simp [quoteStep, hq]
    | false =>
      rw [if_neg Bool.false_ne_true, Option.map_some, quoteStep]
      split
      · simp [hq]
      · split
        · rfl
        · simp [hq, hescaped]
  · rw [hnext, hq, Option.map_none, quoteStep, isQuote_of_isBlank hc]
    rfl
  · rw [hnext, hq, Option.map_none, quoteStep]
    cases isQuote c <;> rfl

/-- What is kept of a character reads, as to quotes, as the character does. -/
theorem emit_reads_alike (state : CollapseState) (c : Char) :
    insideFrom state.quoteState (state.emit c) = insideFrom state.quoteState [c] ∧
      (state.emit c).foldl quoteStep state.quoteState = quoteStep state.quoteState c := by
  unfold CollapseState.quoteState
  obtain ⟨q, hq, hemit, -⟩ | ⟨hq, hc, hemit, -⟩ | ⟨hq, hc, hemit, -⟩ := state.step_cases c
  · rw [hemit]
    exact ⟨rfl, rfl⟩
  · rw [hemit, hq, Option.map_none, insideFrom_none, quoteStep, isQuote_of_isBlank hc]
    exact ⟨rfl, rfl⟩
  · rw [hemit, hq]
    cases state.gap <;> exact ⟨rfl, rfl⟩

theorem insideFrom_collapseFrom (state : CollapseState) (s : List Char) :
    insideFrom state.quoteState (collapseFrom state s) = insideFrom state.quoteState s := by
  induction s generalizing state with
  | nil => rfl
  | cons c rest ih =>
    obtain ⟨hinside, hstate⟩ := emit_reads_alike state c
    rw [collapseFrom_cons, insideFrom_append, hinside, hstate, ← quoteState_next, ih, quoteState_next]
    exact (insideFrom_append _ [c] rest).symm

/-- Collapsing leaves quoted texts alone. -/
theorem inside_collapseChars (s : List Char) : inside (collapseChars s) = inside s :=
  insideFrom_collapseFrom {} s

/-! ## Texts without quotes -/

/-- What is open is a quote. -/
def QuoteState.Sound (state : QuoteState) : Prop :=
  ∀ q escaped, state = some (q, escaped) → isQuote q = true

theorem QuoteState.sound_none : QuoteState.Sound none := by
  intro q escaped h
  cases h

theorem QuoteState.Sound.step {state : QuoteState} (h : state.Sound) (c : Char) :
    QuoteState.Sound (quoteStep state c) := by
  intro q escaped hq
  cases state with
  | none =>
    rw [quoteStep] at hq
    cases hc : isQuote c with
    | true =>
      rw [hc] at hq
      cases hq
      exact hc
    | false =>
      rw [hc] at hq
      cases hq
  | some started =>
    obtain ⟨hnone, -⟩ | ⟨next, hsome⟩ := quoteStep_some_cases started.1 started.2 c
    · rw [hnone] at hq
      cases hq
    · rw [hsome] at hq
      cases hq
      exact h _ _ rfl

theorem QuoteState.Sound.foldl {state : QuoteState} (h : state.Sound) (s : List Char) :
    QuoteState.Sound (s.foldl quoteStep state) := by
  induction s generalizing state with
  | nil => exact h
  | cons c s ih => exact ih (h.step c)

/-- Whether a character has no meaning for quotes. -/
def isUnquoted (c : Char) : Bool :=
  !isQuote c && c != '\\'

/-- No character is a quote or a backslash. -/
def Unquoted (s : List Char) : Prop :=
  ∀ c ∈ s, isUnquoted c = true

theorem isUnquoted_of_isBlank {c : Char} (h : isBlank c = true) : isUnquoted c = true := by
  have hne : c ≠ '\\' := by
    rintro rfl
    exact absurd h (by decide)
  simp [isUnquoted, isQuote_of_isBlank h, hne]

theorem isUnquoted_of_toLower {c : Char} (h : isUnquoted c.toLower = true) : isUnquoted c = true := by
  cases hc : isUnquoted c with
  | true => rfl
  | false =>
    have hcases : (c = '"' ∨ c = '\'') ∨ c = '\\' := by
      simpa [isUnquoted, isQuote, or_iff_not_imp_left] using hc
    rcases hcases with (rfl | rfl) | rfl <;> exact absurd h (by decide)

/-- A character without a meaning for quotes ends an escape and does nothing else. -/
theorem quoteStep_of_isUnquoted {state : QuoteState} (h : state.Sound) {c : Char}
    (hc : isUnquoted c = true) :
    quoteStep state c = state.map fun started => (started.1, false) := by
  have hquote : isQuote c = false ∧ c ≠ '\\' := by simpa [isUnquoted] using hc
  cases state with
  | none => simp [quoteStep, hquote.1]
  | some started =>
    obtain ⟨q, escaped⟩ := started
    have hne : c ≠ q := by
      rintro rfl
      rw [h c escaped rfl] at hquote
      cases hquote.1
    cases escaped with
    | true => rfl
    | false => simp [quoteStep, hquote.2, hne]

section Replaced

variable {state : QuoteState} (h : state.Sound) {s t : List Char} (hs : Unquoted s) (ht : Unquoted t)

include h hs

theorem foldl_of_unquoted (hne : s ≠ []) :
    s.foldl quoteStep state = state.map fun started => (started.1, false) := by
  induction s generalizing state with
  | nil => exact absurd rfl hne
  | cons c s ih =>
    obtain ⟨hc, hrest⟩ := List.forall_mem_cons.mp hs
    have hstep := quoteStep_of_isUnquoted h hc
    rw [List.foldl_cons]
    cases s with
    | nil => exact hstep
    | cons d s =>
      rw [ih (h.step c) hrest (List.cons_ne_nil d s), hstep, Option.map_map]
      rfl

theorem insideFrom_of_unquoted : insideFrom state s = if state.isSome then s else [] := by
  induction s generalizing state with
  | nil => cases state <;> rfl
  | cons c s ih =>
    obtain ⟨hc, hrest⟩ := List.forall_mem_cons.mp hs
    rw [insideFrom, ih (h.step c) hrest, quoteStep_of_isUnquoted h hc, Option.isSome_map]
    cases state.isSome <;> rfl

include ht

/-- Texts without quotes leave the same quote open. -/
theorem foldl_eq_of_unquoted (hs_ne : s ≠ []) (ht_ne : t ≠ []) :
    s.foldl quoteStep state = t.foldl quoteStep state := by
  rw [foldl_of_unquoted h hs hs_ne, foldl_of_unquoted h ht ht_ne]

theorem length_insideFrom_le_of_unquoted (hlength : s.length ≤ t.length) :
    (insideFrom state s).length ≤ (insideFrom state t).length := by
  rw [insideFrom_of_unquoted h hs, insideFrom_of_unquoted h ht]
  cases state.isSome with
  | true => exact hlength
  | false => exact Nat.le_refl 0

/-- Texts without quotes may be put for each other, unless they stand inside quotes. -/
theorem insideFrom_eq_iff_of_unquoted :
    insideFrom state s = insideFrom state t ↔ (state.isSome → s = t) := by
  rw [insideFrom_of_unquoted h hs, insideFrom_of_unquoted h ht]
  cases state.isSome <;> simp

end Replaced

/-! ## Words and blanks -/

theorem unquoted_of_allBlank {s : List Char} (h : AllBlank s) : Unquoted s :=
  fun c hc => isUnquoted_of_isBlank (h c hc)

/-- A word is spelled as it is, or it has no quotes and its spelling is not longer. -/
theorem spelling_cases (word : List Char) : spelling word = word ∨
    Unquoted word ∧ Unquoted (spelling word) ∧ spelling word ≠ [] ∧
      (spelling word).length ≤ word.length := by
  have hnew : ∀ small : String, small.toList.all isUnquoted = true →
      "currentColor".length ≤ small.length → lower (String.ofList word) = small →
      Unquoted word ∧ "currentColor".length ≤ word.length := by
    intro small hsmall hlength heq
    have hmap : word.map Char.toLower = small.toList := by
      rw [← heq, lower, String.toList_ofList, String.toList_ofList]
    refine ⟨fun c hc => isUnquoted_of_toLower (List.all_eq_true.mp hsmall _ ?_), ?_⟩
    · rw [← hmap]
      exact List.mem_map_of_mem hc
    · rw [← List.length_map (f := Char.toLower), hmap, String.length_toList]
      exact hlength
  unfold spelling canonicalWord
  dsimp only
  split
  · next hcolor =>
    have hcolor : Unquoted word ∧ "currentColor".length ≤ word.length := by
      rcases (Bool.or_eq_true _ _).mp hcolor with h | h
      · exact hnew _ (by decide) (by decide) (beq_iff_eq.mp h)
      · exact hnew _ (by decide) (by decide) (beq_iff_eq.mp h)
    exact Or.inr ⟨hcolor.1, List.all_eq_true.mp (by decide), by decide, hcolor.2⟩
  · exact Or.inl String.toList_ofList

section Word

variable {state : QuoteState} (h : state.Sound) (segment : Segment)

include h

theorem foldl_spelling :
    (spelling segment.word).foldl quoteStep state = segment.word.foldl quoteStep state := by
  rcases spelling_cases segment.word with heq | ⟨hword, hspelling, hne, -⟩
  · rw [heq]
  · exact foldl_eq_of_unquoted h hspelling hword hne segment.ne_nil

theorem length_insideFrom_spelling_le :
    (insideFrom state (spelling segment.word)).length ≤ (insideFrom state segment.word).length := by
  rcases spelling_cases segment.word with heq | ⟨hword, hspelling, -, hlength⟩
  · rw [heq]
  · exact length_insideFrom_le_of_unquoted h hspelling hword hlength

theorem insideFrom_spelling_eq_iff :
    insideFrom state (spelling segment.word) = insideFrom state segment.word ↔
      (state.isSome → spelling segment.word = segment.word) := by
  rcases spelling_cases segment.word with heq | ⟨hword, hspelling, -⟩
  · rw [heq]
    exact iff_of_true rfl fun _ => rfl
  · exact insideFrom_eq_iff_of_unquoted h hspelling hword

end Word

theorem unquoted_joint (rest : List Segment) : Unquoted (joint rest) := by
  unfold joint
  split
  · exact List.all_eq_true.mp (by decide)
  · exact List.all_eq_true.mp (by decide)

/-! ## Canonical spelling -/

/-- Inside quotes, no word is spelled anew, and words are apart by what the canonical spelling puts
between them. -/
def UndisturbedFrom : QuoteState → List Segment → Prop
  | _, [] => True
  | state, segment :: rest =>
    (state.isSome → spelling segment.word = segment.word) ∧
      ((segment.word.foldl quoteStep state).isSome → joint rest = segment.gap) ∧
      UndisturbedFrom (segment.text.foldl quoteStep state) rest

instance decidableUndisturbedFrom :
    (state : QuoteState) → (segments : List Segment) → Decidable (UndisturbedFrom state segments)
  | _, [] => inferInstanceAs (Decidable True)
  | state, segment :: rest =>
    have := decidableUndisturbedFrom (segment.text.foldl quoteStep state) rest
    inferInstanceAs (Decidable (_ ∧ _ ∧ _))

theorem insideFrom_text_cons (state : QuoteState) (segment : Segment) (rest : List Segment) :
    insideFrom state ((segment :: rest).flatMap Segment.text) = insideFrom state segment.word ++
      (insideFrom (segment.word.foldl quoteStep state) segment.gap ++
        insideFrom (segment.text.foldl quoteStep state) (rest.flatMap Segment.text)) := by
  rw [List.flatMap_cons, insideFrom_append, Segment.text, insideFrom_append, List.append_assoc]

section Joined

variable {state : QuoteState} (h : state.Sound) {segment : Segment} {rest : List Segment}
  (hspaced : Spaced (segment :: rest))

include h hspaced

theorem insideFrom_joined_cons : insideFrom state (joined (segment :: rest)) =
    insideFrom state (spelling segment.word) ++
      (insideFrom (segment.word.foldl quoteStep state) (joint rest) ++
        insideFrom (segment.text.foldl quoteStep state) (joined rest)) := by
  rw [joined, insideFrom_append, insideFrom_append, foldl_spelling h]
  cases rest with
  | nil => rfl
  | cons next rest =>
    have hgap := unquoted_of_allBlank (hspaced.blank segment List.mem_cons_self)
    rw [foldl_eq_of_unquoted (h.foldl segment.word) (unquoted_joint (next :: rest)) hgap
      (by simp [joint]) (hspaced.gap_ne_nil (List.cons_ne_nil _ _)), ← List.foldl_append]
    rfl

theorem length_insideFrom_joint_le :
    (insideFrom (segment.word.foldl quoteStep state) (joint rest)).length ≤
      (insideFrom (segment.word.foldl quoteStep state) segment.gap).length := by
  refine length_insideFrom_le_of_unquoted (h.foldl _) (unquoted_joint rest)
    (unquoted_of_allBlank (hspaced.blank segment List.mem_cons_self)) ?_
  unfold joint
  cases rest with
  | nil => exact Nat.zero_le _
  | cons next rest =>
    exact List.length_pos_iff.mpr (hspaced.gap_ne_nil (List.cons_ne_nil _ _))

end Joined

/-- The canonical spelling has no more characters in quoted texts. -/
theorem length_insideFrom_joined_le {state : QuoteState} (h : state.Sound) {segments : List Segment}
    (hspaced : Spaced segments) : (insideFrom state (joined segments)).length ≤
      (insideFrom state (segments.flatMap Segment.text)).length := by
  induction segments generalizing state with
  | nil => exact Nat.le_refl _
  | cons segment rest ih =>
    rw [insideFrom_joined_cons h hspaced, insideFrom_text_cons, List.length_append,
      List.length_append, List.length_append, List.length_append]
    exact Nat.add_le_add (length_insideFrom_spelling_le h segment)
      (Nat.add_le_add (length_insideFrom_joint_le h hspaced) (ih (h.foldl _) hspaced.tail))

/-- Texts in a row, none of them longer than its counterpart, are the same just if each is. -/
theorem append_eq_append_iff_of_length_le {a b s t : List Char} (hab : a.length ≤ b.length)
    (hst : s.length ≤ t.length) : a ++ s = b ++ t ↔ a = b ∧ s = t := by
  constructor
  · intro h
    have hlength := congrArg List.length h
    rw [List.length_append, List.length_append] at hlength
    exact List.append_inj h (by omega)
  · rintro ⟨rfl, rfl⟩
    rfl

/-- The canonical spelling leaves quoted texts alone just if nothing inside of them is changed: where
one place loses a character, no other place makes up for it. -/
theorem insideFrom_joined_iff {state : QuoteState} (h : state.Sound) {segments : List Segment}
    (hspaced : Spaced segments) :
    insideFrom state (joined segments) = insideFrom state (segments.flatMap Segment.text) ↔
      UndisturbedFrom state segments := by
  induction segments generalizing state with
  | nil => exact iff_of_true rfl trivial
  | cons segment rest ih =>
    have hrest := length_insideFrom_joined_le (h.foldl segment.text) hspaced.tail
    have hjoint := length_insideFrom_joint_le h hspaced
    have hgap := unquoted_of_allBlank (hspaced.blank segment List.mem_cons_self)
    rw [insideFrom_joined_cons h hspaced, insideFrom_text_cons,
      append_eq_append_iff_of_length_le (length_insideFrom_spelling_le h segment)
        (by rw [List.length_append, List.length_append]; exact Nat.add_le_add hjoint hrest),
      append_eq_append_iff_of_length_le hjoint hrest, insideFrom_spelling_eq_iff h,
      insideFrom_eq_iff_of_unquoted (h.foldl _) (unquoted_joint rest) hgap,
      ih (h.foldl _) hspaced.tail]
    rfl

/-- The canonical spelling of a collapsed text changes nothing inside its quoted texts. -/
def Undisturbed (s : List Char) : Prop :=
  UndisturbedFrom none (segments s)

instance (s : List Char) : Decidable (Undisturbed s) :=
  inferInstanceAs (Decidable (UndisturbedFrom none (segments s)))

theorem foldl_of_allBlank {blanks : List Char} (h : AllBlank blanks) :
    blanks.foldl quoteStep none = none := by
  by_cases hne : blanks = []
  · rw [hne]
    rfl
  · exact foldl_of_unquoted QuoteState.sound_none (unquoted_of_allBlank h) hne

theorem inside_eq_segments (s : List Char) :
    inside s = insideFrom none ((segments s).flatMap Segment.text) := by
  obtain ⟨lead, hlead, hmarks⟩ := exists_lead s
  conv => lhs; rw [eq_of_marks hmarks]
  rw [inside, insideFrom_append, foldl_of_allBlank hlead,
    insideFrom_of_unquoted QuoteState.sound_none (unquoted_of_allBlank hlead)]
  rfl

/-! ## Quoted texts without quotes in them -/

/-- No separator stands inside quotes. -/
def SeparatorsOutside : QuoteState → List (Char × Bool) → Prop
  | _, [] => True
  | state, (c, separates) :: rest =>
    (separates = true → state = none) ∧ SeparatorsOutside (quoteStep state c) rest

theorem separatorsOutside_append {state : QuoteState} {a b : List (Char × Bool)} :
    SeparatorsOutside state (a ++ b) ↔
      SeparatorsOutside state a ∧ SeparatorsOutside ((unmark a).foldl quoteStep state) b := by
  induction a generalizing state with
  | nil => exact (true_and _).symm ▸ Iff.rfl
  | cons x a ih =>
    obtain ⟨c, separates⟩ := x
    exact (and_congr_right fun _ => ih).trans and_assoc.symm

/-- Without separators inside quotes, nothing changes there. -/
theorem undisturbed_of_separatorsOutside {segments : List Segment} (hspaced : Spaced segments)
    (h : SeparatorsOutside none (segments.flatMap Segment.marks)) :
    UndisturbedFrom none segments := by
  induction segments with
  | nil => trivial
  | cons segment rest ih =>
    rw [List.flatMap_cons, separatorsOutside_append, Segment.marks, separatorsOutside_append,
      unmark_map] at h
    obtain ⟨⟨-, hgap⟩, hrest⟩ := h
    rw [← Segment.marks, unmark_marks] at hrest
    cases hcons : segment.gap with
    | nil =>
      cases rest with
      | nil => exact ⟨by simp, fun _ => hcons.symm, trivial⟩
      | cons next rest => exact absurd hcons (hspaced.gap_ne_nil (List.cons_ne_nil _ _))
    | cons c gap =>
      rw [hcons] at hgap
      have hword : segment.word.foldl quoteStep none = none := hgap.1 rfl
      have htext : segment.text.foldl quoteStep none = none := by
        rw [Segment.text, List.foldl_append, hword]
        exact foldl_of_allBlank (hspaced.blank segment List.mem_cons_self)
      rw [htext] at hrest
      refine ⟨by simp, by simp [hword], ?_⟩
      rw [htext]
      exact ih hspaced.tail hrest

/-- The quoted text that is open is one of those that are read. -/
theorem exists_mem_quotedTextsFrom (q : Char) (escaped : Bool) (soFar s : List Char) :
    ∃ quoted ∈ quotedTextsFrom (some (q, escaped)) soFar s,
      quoted.quote = q ∧ ∀ c ∈ soFar, c ∈ quoted.body := by
  induction s generalizing escaped soFar with
  | nil => exact ⟨_, List.mem_singleton_self _, rfl, fun c hc => List.mem_reverse.mpr hc⟩
  | cons c rest ih =>
    rw [quotedTextsFrom]
    obtain ⟨hnone, -⟩ | ⟨next, hsome⟩ := quoteStep_some_cases q escaped c
    · rw [hnone, if_neg (by simp)]
      exact ⟨_, List.mem_cons_self, rfl, fun d hd => List.mem_reverse.mpr hd⟩
    · rw [hsome, Option.isSome_some, if_pos rfl]
      obtain ⟨quoted, hmem, hquote, hbody⟩ := ih next (c :: soFar)
      exact ⟨quoted, hmem, hquote, fun d hd => hbody d (List.mem_cons_of_mem _ hd)⟩

/-- Where no quoted text has its own quote in it, no separator stands inside quotes. -/
theorem separatorsOutside_wordMarksFrom {state : QuoteState} (hsound : state.Sound)
    {soFar s : List Char}
    (h : ∀ quoted ∈ quotedTextsFrom state soFar s, quoted.quote ∉ quoted.body) (depth : Int) :
    SeparatorsOutside state (wordMarksFrom depth (state.map Prod.fst) s) := by
  -- Along the text, the two readers have the same quote open.
  induction s generalizing state soFar depth with
  | nil => trivial
  | cons c rest ih =>
    have hnext := hsound.step c
    cases state with
    | none =>
      rw [quotedTextsFrom] at h
      obtain ⟨separates, depth', -, hstep⟩ := wordMarksFrom_none depth c
      have hquote : (if isQuote c then some c else none) = (quoteStep none c).map Prod.fst := by
        rw [quoteStep]
        cases isQuote c <;> rfl
      rw [Option.map_none, hstep, hquote]
      exact ⟨fun _ => rfl, ih hnext h depth'⟩
    | some started =>
      obtain ⟨q, escaped⟩ := started
      rw [quotedTextsFrom] at h
      have hquote : (if c == q then none else some q) =
          (quoteStep (some (q, escaped)) c).map Prod.fst := by
        cases escaped with
        | true =>
          obtain ⟨quoted, hmem, hq, hbody⟩ := exists_mem_quotedTextsFrom q false (c :: soFar) rest
          have hne : c ≠ q := by
            rintro rfl
            exact h quoted hmem (hq ▸ hbody c List.mem_cons_self)
          rw [if_neg (by simpa using hne)]
          rfl
        | false =>
          have hslash : q ≠ '\\' := by
            rintro rfl
            exact absurd (hsound _ _ rfl) (by decide)
          rw [quoteStep]
          by_cases hescape : c = '\\'
          · rw [hescape, if_neg (by simpa using hslash.symm)]
            rfl
          · rw [beq_eq_false_iff_ne.mpr hescape]
            cases c == q <;> rfl
      rw [Option.map_some, wordMarksFrom, hquote]
      refine ⟨by simp, ?_⟩
      cases hstep : quoteStep (some (q, escaped)) c with
      | none =>
        rw [hstep] at h hnext
        exact ih hnext (fun quoted hmem => h quoted (List.mem_cons_of_mem _ hmem)) depth
      | some next =>
        rw [hstep] at h hnext
        exact ih hnext h depth

theorem undisturbed_of_not_mem {s : List Char}
    (h : ∀ quoted ∈ quotedTexts s, quoted.quote ∉ quoted.body) : Undisturbed s := by
  obtain ⟨lead, hlead, hmarks⟩ := exists_lead s
  have houtside := separatorsOutside_wordMarksFrom QuoteState.sound_none h 0
  rw [Option.map_none, hmarks, separatorsOutside_append, unmark_map, foldl_of_allBlank hlead]
    at houtside
  exact undisturbed_of_separatorsOutside (spaced_segments s) houtside.2

/-- **Quoted texts.**  Collapsing leaves the quoted texts of a value alone.  The canonical spelling has
the same quoted texts just if, in the collapsed value, nothing that stands inside of them is changed
(`Undisturbed`); so it is if no quoted text has its own quote in it. -/
theorem quotedTexts_canonical_iff (value : String) :
    quotedTexts (collapse value).toList = quotedTexts value.toList ∧
      (quotedTexts (canonical value).toList = quotedTexts value.toList ↔
        Undisturbed (collapse value).toList) ∧
      ((∀ quoted ∈ quotedTexts value.toList, quoted.quote ∉ quoted.body) →
        Undisturbed (collapse value).toList) := by
  have hinside : inside (collapse value).toList = inside value.toList := by
    rw [collapse, String.toList_ofList, inside_collapseChars]
  have hcollapse := quotedTexts_eq_iff.mpr hinside
  refine ⟨hcollapse, ?_, fun h => ?_⟩
  · rw [quotedTexts_eq_iff, ← hinside, inside_eq_segments (collapse value).toList, toList_canonical]
    exact insideFrom_joined_iff QuoteState.sound_none (spaced_segments _)
  · rw [← hcollapse] at h
    generalize (collapse value).toList = collapsed at h ⊢
    exact undisturbed_of_not_mem h

/-- Quoted texts with blanks, the other quote, a backslash and a word that is spelled anew elsewhere. -/
def mixedQuotes : String :=
  "  '\"  \\n' attr(  x )  CURRENT-COLOR \"current-color  it's\" "

theorem quotedTexts_canonical_mixedQuotes :
    (∀ quoted ∈ quotedTexts mixedQuotes.toList, quoted.quote ∉ quoted.body) ∧
      canonical mixedQuotes = "'\"  \\n' attr( x ) currentColor \"current-color  it's\"" ∧
      quotedTexts (canonical mixedQuotes).toList = quotedTexts mixedQuotes.toList ∧
      quotedTexts mixedQuotes.toList = [⟨'\'', "\"  \\n".toList, true⟩,
        ⟨'"', "current-color  it's".toList, true⟩] := by
  have hquotes : ∀ quoted ∈ quotedTexts mixedQuotes.toList, quoted.quote ∉ quoted.body := by
    decide +kernel
  obtain ⟨-, hiff, hundisturbed⟩ := quotedTexts_canonical_iff mixedQuotes
  exact ⟨hquotes, by decide +kernel, hiff.mpr (hundisturbed hquotes), by decide +kernel⟩

/-- After an escaped quote, two spaces of a quoted text become one. -/
theorem escaped_quote_disturbs :
    let value := "\"\\\"  b\""
    canonical value = "\"\\\" b\"" ∧
      quotedTexts value.toList = [⟨'"', "\\\"  b".toList, true⟩] ∧
      quotedTexts (canonical value).toList = [⟨'"', "\\\" b".toList, true⟩] ∧
      ¬ Undisturbed (collapse value).toList := by
  decide +kernel

end AtomicStyle.Css
