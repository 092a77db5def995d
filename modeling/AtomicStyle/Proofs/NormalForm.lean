import AtomicStyle.Proofs.Bucketing

/-!
# Selectors in normal form

A selector is in normal form if, outside brackets and quotes, every blank in it is a space between two
characters of which none is a blank or a combinator (`Normal`).  This can be read off neighbouring
characters.  Normalizing makes such a selector of every text, and leaves it as it is.

Results:
1. `normal_normalizeFrom`: what normalizing gives is in normal form.
2. `normalizeFrom_of_normal`: what is in normal form stays as it is.
3. `normalize_eq_self_iff`: the selectors in normal form are those that stay as they are.
4. `Context.of_normalize`: contexts and their normalized selectors.
-/

namespace AtomicStyle

open AtomicStyle.Text

namespace Selector

/-! ## Normal form -/

/-- The bracket depth and the open quote after a character. -/
def placeNext : Nat × Option Char → Char → Nat × Option Char
  | (depth, some q), c => (depth, if c == q then none else some q)
  | (depth, none), c =>
    if isOpening c then (depth + 1, none)
    else if isClosing c then (depth - 1, none)
    else if isQuote c then (depth, some c)
    else (depth, none)

/-- Whether a space may stand beside a character. -/
def joins (c : Char) : Bool :=
  !isBlank c && !isCombinator c

/-- The rest of a selector in normal form, given where it stands and the character before it. -/
def NormalFrom (place : Nat × Option Char) (before : Option Char) : List Char → Prop
  | [] => place = (0, none) → before.all (!isBlank ·) = true
  | c :: rest =>
    (place = (0, none) →
      (isBlank c = true → c = ' ' ∧ before.any joins = true) ∧
      (isCombinator c = true → before.all (!isBlank ·) = true)) ∧
    NormalFrom (placeNext place c) (some c) rest

/-- A selector in normal form.  Blanks at its ends do not count even inside brackets and quotes that
are never closed. -/
structure Normal (s : List Char) : Prop where
  trim_eq : trim s = s
  spaced : NormalFrom (0, none) none s

section Characters

variable {c : Char}

theorem joins_iff : joins c = true ↔ isBlank c = false ∧ isCombinator c = false := by
  simp [joins]

theorem joins_of_isClosing (h : isClosing c = true) : joins c = true := by
  simp only [isClosing, Bool.or_eq_true, beq_iff_eq] at h
  rcases h with rfl | rfl <;> decide

theorem joins_of_isQuote (h : isQuote c = true) : joins c = true := by
  simp only [isQuote, Bool.or_eq_true, beq_iff_eq] at h
  rcases h with rfl | rfl <;> decide

theorem isBlank_of_isCombinator (h : isCombinator c = true) : isBlank c = false := by
  simp only [isCombinator, Bool.or_eq_true, beq_iff_eq] at h
  rcases h with (rfl | rfl) | rfl <;> decide

theorem placeNext_of_isCombinator (h : isCombinator c = true) : placeNext (0, none) c = (0, none) := by
  simp only [isCombinator, Bool.or_eq_true, beq_iff_eq] at h
  rcases h with (rfl | rfl) | rfl <;> rfl

/-- Only a closing bracket or quote leads back to the top level. -/
theorem joins_of_placeNext {place : Nat × Option Char} (hquote : ∀ q ∈ place.2, isQuote q = true)
    (hplace : place ≠ (0, none)) (hnext : placeNext place c = (0, none)) : joins c = true := by
  obtain ⟨depth, quote⟩ := place
  cases quote with
  | some q =>
    simp only [placeNext, Prod.mk.injEq, ite_eq_left_iff, reduceCtorEq, imp_false, not_not] at hnext
    rw [beq_iff_eq.mp hnext.2]
    exact joins_of_isQuote (hquote q rfl)
  | none =>
    simp only [placeNext] at hnext
    split at hnext
    · simp at hnext
    · split at hnext
      · next hclosing => exact joins_of_isClosing hclosing
      · split at hnext
        · simp at hnext
        · exact absurd hnext hplace

end Characters

/-! ## One character -/

namespace NormalState

/-- Where a state stands. -/
def place (state : NormalState) : Nat × Option Char :=
  (state.depth, state.quote)

/-- A state knows the last character that was kept: whether there is one, and outside brackets and
quotes whether it is a combinator.  There it is never blank. -/
structure Behind (state : NormalState) (before : Option Char) : Prop where
  started : state.started = before.isSome
  isQuote : ∀ q ∈ state.quote, isQuote q = true
  notBlank : state.place = (0, none) → before.all (!isBlank ·) = true
  afterCombinator : state.place = (0, none) → state.afterCombinator = before.any isCombinator
  inside : state.place ≠ (0, none) →
    state.started = true ∧ state.afterCombinator = false ∧ state.gap = false

/-- A character was kept since the last blanks, and it is no combinator. -/
structure Fresh (state : NormalState) : Prop where
  started : state.started = true
  afterCombinator : state.afterCombinator = false
  gap : state.gap = false

variable {state : NormalState} {before : Option Char} {c : Char}

theorem Fresh.behind (h : state.Fresh) (hquote : ∀ q ∈ state.quote, Text.isQuote q = true)
    (hjoins : state.place = (0, none) → joins c = true) : state.Behind (some c) where
  started := h.started
  isQuote := hquote
  notBlank := fun hplace => by simp [(joins_iff.mp (hjoins hplace)).1]
  afterCombinator := fun hplace => by simp [h.afterCombinator, (joins_iff.mp (hjoins hplace)).2]
  inside := fun _ => ⟨h.started, h.afterCombinator, h.gap⟩

/-- What a character opens or closes is all that changes outside quotes. -/
theorem enter_cases (hquote : state.quote = none) (c : Char) :
    (state.enter c).place = placeNext state.place c ∧
      (∀ q ∈ (state.enter c).quote, Text.isQuote q = true) ∧
      (state.Fresh → (state.enter c).Fresh) := by
  obtain ⟨depth, quote, started, gap, after⟩ := state
  dsimp only at hquote
  subst hquote
  have hnone : ∀ q ∈ (none : Option Char), Text.isQuote q = true := by simp
  simp only [enter, placeNext, place]
  split
  · exact ⟨rfl, hnone, fun h => ⟨h.started, h.afterCombinator, h.gap⟩⟩
  · split
    · exact ⟨rfl, hnone, fun h => ⟨h.started, h.afterCombinator, h.gap⟩⟩
    · split
      · next hc => exact ⟨rfl, by simpa using hc, fun h => ⟨h.started, h.afterCombinator, h.gap⟩⟩
      · exact ⟨rfl, hnone, id⟩

/-- What one character does: inside brackets and quotes it is kept; outside a blank is left out, a
combinator is kept, and any other character is kept after a space if blanks were left out behind a
character that is no combinator. -/
theorem normalizeFrom_cases (h : state.Behind before) (c : Char) :
    (state.place ≠ (0, none) ∧ ∃ next : NormalState, next.place = placeNext state.place c ∧
        next.Fresh ∧ next.Behind (some c) ∧
        ∀ rest, normalizeFrom state (c :: rest) = c :: normalizeFrom next rest) ∨
      (state.place = (0, none) ∧ isBlank c = true ∧
        ∀ rest, normalizeFrom state (c :: rest) = normalizeFrom { state with gap := true } rest) ∨
      (state.place = (0, none) ∧ isCombinator c = true ∧
        ∀ rest, normalizeFrom state (c :: rest) =
          c :: normalizeFrom { started := true, afterCombinator := true } rest) ∨
      (state.place = (0, none) ∧ joins c = true ∧ ∃ next : NormalState,
        next.place = placeNext (0, none) c ∧ next.Fresh ∧ next.Behind (some c) ∧
        ∀ rest, normalizeFrom state (c :: rest) =
          (if state.gap && !state.afterCombinator && state.started then [' '] else []) ++
            c :: normalizeFrom next rest) := by
  cases hquote : state.quote with
  | some q =>
    have hplace : state.place ≠ (0, none) := by simp [place, hquote]
    obtain ⟨hstarted, hafter, hgap⟩ := h.inside hplace
    have hq := h.isQuote
    rw [hquote] at hq
    let next : NormalState := { state with quote := if c == q then none else some q }
    have hnext : next.place = placeNext state.place c := by simp [next, place, placeNext, hquote]
    have hfresh : next.Fresh := ⟨hstarted, hafter, hgap⟩
    refine .inl ⟨hplace, next, hnext, hfresh, hfresh.behind ?_ fun htop => ?_, fun rest => ?_⟩
    · intro r hr
      have hor : r = q := by
        simp only [next] at hr
        split at hr
        · cases hr
        · exact (Option.some.inj hr).symm
      exact hor ▸ hq q rfl
    · exact joins_of_placeNext h.isQuote hplace (hnext ▸ htop)
    · simp only [normalizeFrom, hquote, next]
  | none =>
    by_cases hdepth : 0 < state.depth
    · have hplace : state.place ≠ (0, none) := by
        simp only [place, ne_eq, Prod.mk.injEq, not_and]
        omega
      obtain ⟨hstarted, hafter, hgap⟩ := h.inside hplace
      obtain ⟨hnext, hquotes, hfresh⟩ := state.enter_cases hquote c
      have hfresh := hfresh ⟨hstarted, hafter, hgap⟩
      refine .inl ⟨hplace, _, hnext, hfresh, hfresh.behind hquotes fun htop => ?_, fun rest => ?_⟩
      · exact joins_of_placeNext h.isQuote hplace (hnext ▸ htop)
      · simp only [normalizeFrom, hquote, hdepth, ↓reduceIte]
    · have hplace : state.place = (0, none) := by
        simp only [place, hquote, Prod.mk.injEq, and_true]
        omega
      refine .inr ?_
      by_cases hblank : isBlank c = true
      · exact .inl ⟨hplace, hblank, fun rest => by simp [normalizeFrom, hquote, hdepth, hblank]⟩
      · by_cases hcombinator : isCombinator c = true
        · exact .inr (.inl ⟨hplace, hcombinator,
            fun rest => by simp [normalizeFrom, hquote, hdepth, hblank, hcombinator]⟩)
        · have hjoins : joins c = true := joins_iff.mpr ⟨by simpa using hblank, by simpa using hcombinator⟩
          have hquiet : ({ started := true } : NormalState).quote = none := rfl
          obtain ⟨hnext, hquotes, hfresh⟩ := enter_cases hquiet c
          have hfresh := hfresh ⟨rfl, rfl, rfl⟩
          refine .inr (.inr ⟨hplace, hjoins, _, hnext, hfresh, hfresh.behind hquotes fun _ => hjoins,
            fun rest => ?_⟩)
          simp only [normalizeFrom, hquote, hdepth, hblank, hcombinator, ↓reduceIte,
            Bool.false_eq_true]
          split <;> rfl

theorem behind_combinator (h : isCombinator c = true) :
    Behind { started := true, afterCombinator := true } (some c) where
  started := rfl
  isQuote := by simp
  notBlank := fun _ => by simp [isBlank_of_isCombinator h]
  afterCombinator := fun _ => by simp [h]
  inside := fun hplace => absurd rfl hplace

theorem Behind.withGap (h : state.Behind before) (hplace : state.place = (0, none)) :
    Behind { state with gap := true } before where
  started := h.started
  isQuote := h.isQuote
  notBlank := h.notBlank
  afterCombinator := h.afterCombinator
  inside := fun hne => absurd hplace hne

end NormalState

open NormalState

/-! ## One pass -/

/-- What normalizing gives is in normal form. -/
theorem normal_normalizeFrom {state : NormalState} {before : Option Char} (h : state.Behind before)
    (s : List Char) : NormalFrom state.place before (normalizeFrom state s) := by
  induction s generalizing state before with
  | nil => exact h.notBlank
  | cons c s ih =>
    obtain ⟨hplace, next, hnext, -, hbehind, hstep⟩ | ⟨hplace, -, hstep⟩ |
      ⟨hplace, hcombinator, hstep⟩ | ⟨hplace, hjoins, next, hnext, -, hbehind, hstep⟩ :=
      normalizeFrom_cases h c
    · rw [hstep]
      exact ⟨fun htop => absurd htop hplace, hnext ▸ ih hbehind⟩
    · rw [hstep]
      exact ih (h.withGap hplace)
    · rw [hstep, hplace]
      have hrest := ih (behind_combinator hcombinator)
      refine ⟨fun _ => ⟨fun hblank => ?_, fun _ => h.notBlank hplace⟩,
        (placeNext_of_isCombinator hcombinator).symm ▸ hrest⟩
      rw [isBlank_of_isCombinator hcombinator] at hblank
      cases hblank
    · obtain ⟨hblank, hcombinator⟩ := joins_iff.mp hjoins
      have hkept : ∀ other, NormalFrom (0, none) other (c :: normalizeFrom next s) := fun other =>
        ⟨fun _ => ⟨fun hc => by simp [hblank] at hc, fun hc => by simp [hcombinator] at hc⟩,
          hnext ▸ ih hbehind⟩
      rw [hstep, hplace]
      split
      · next hspace =>
        simp only [Bool.and_eq_true, Bool.not_eq_true'] at hspace
        obtain ⟨⟨-, hafter⟩, hstarted⟩ := hspace
        refine ⟨fun _ => ⟨fun _ => ⟨rfl, ?_⟩, fun hc => absurd hc (by decide)⟩, hkept (some ' ')⟩
        rw [h.started] at hstarted
        obtain ⟨b, rfl⟩ := Option.isSome_iff_exists.mp hstarted
        have hnotBlank := h.notBlank hplace
        rw [h.afterCombinator hplace] at hafter
        simp only [Option.all_some, Option.any_some, Bool.not_eq_true'] at hnotBlank hafter ⊢
        exact joins_iff.mpr ⟨hnotBlank, hafter⟩
      · exact hkept before

/-- The character before the rest of a text: the space that is owed, or the last one that was kept. -/
def NormalState.seen (state : NormalState) (before : Option Char) : Option Char :=
  if state.gap then some ' ' else before

theorem gap_eq_false_of_seen {state : NormalState} {before : Option Char}
    (h : (state.seen before).all (!isBlank ·) = true ∨ (state.seen before).any joins = true) :
    state.gap = false := by
  have hspace : isBlank ' ' = true := by decide
  cases hgap : state.gap with
  | false => rfl
  | true => simp [seen, hgap, hspace, joins] at h

/-- What is in normal form stays as it is.  A space is left out at first and put back before the next
character, so it is still owed behind it. -/
theorem normalizeFrom_of_normal {state : NormalState} {before : Option Char}
    (h : state.Behind before) (hgap : state.gap = true → before.any joins = true) {s : List Char}
    (hnormal : NormalFrom state.place (state.seen before) s) :
    normalizeFrom state s = (if state.gap then [' '] else []) ++ s := by
  induction s generalizing state before with
  | nil =>
    have hnone : state.gap = false := by
      by_cases hplace : state.place = (0, none)
      · exact gap_eq_false_of_seen (.inl (hnormal hplace))
      · exact (h.inside hplace).2.2
    rw [hnone]
    rfl
  | cons c s ih =>
    obtain ⟨hhere, hrest⟩ := hnormal
    obtain ⟨hplace, next, hnext, hfresh, hbehind, hstep⟩ | ⟨hplace, hblank, hstep⟩ |
      ⟨hplace, hcombinator, hstep⟩ | ⟨hplace, hjoins, next, hnext, hfresh, hbehind, hstep⟩ :=
      normalizeFrom_cases h c
    · have hkept : normalizeFrom next s = s := by
        have hnormal : NormalFrom next.place (next.seen (some c)) s := by
          rwa [seen, hfresh.gap, hnext]
        simpa [hfresh.gap] using ih hbehind (by simp [hfresh.gap]) hnormal
      rw [hstep, hkept, (h.inside hplace).2.2]
      rfl
    · obtain ⟨rfl, hjoined⟩ := (hhere hplace).1 hblank
      have hnone := gap_eq_false_of_seen (.inr hjoined)
      rw [seen, hnone] at hjoined
      rw [hplace] at hrest
      rw [hstep, hnone]
      exact ih (h.withGap hplace) (fun _ => hjoined)
        (by rwa [show place { state with gap := true } = (0, none) from hplace])
    · have hnone := gap_eq_false_of_seen (.inl ((hhere hplace).2 hcombinator))
      rw [hplace, placeNext_of_isCombinator hcombinator] at hrest
      have hkept := ih (behind_combinator hcombinator) (by simp) hrest
      rw [hstep, hkept, hnone]
      rfl
    · have hkept : normalizeFrom next s = s := by
        have hnormal : NormalFrom next.place (next.seen (some c)) s := by
          rwa [seen, hfresh.gap, hnext, ← hplace]
        simpa [hfresh.gap] using ih hbehind (by simp [hfresh.gap]) hnormal
      have howed : (state.gap && !state.afterCombinator && state.started) = state.gap := by
        cases hstate : state.gap with
        | false => rfl
        | true =>
          have hjoined := hgap hstate
          cases before with
          | none => cases hjoined
          | some b => simp [h.started, h.afterCombinator hplace, (joins_iff.mp hjoined).2]
      rw [hstep, hkept, howed]

theorem behind_start : Behind {} none where
  started := rfl
  isQuote := by simp
  notBlank := fun _ => rfl
  afterCombinator := fun _ => rfl
  inside := fun hplace => absurd rfl hplace

theorem normal_normalize (selector : String) : Normal (normalize selector).toList where
  trim_eq := trim_normalize selector
  spaced := by
    rw [normalize, String.toList_ofList]
    exact normal_normalizeFrom behind_start _

/-- The selectors in normal form are those that normalizing leaves as they are. -/
theorem normalize_eq_self_iff {selector : String} :
    normalize selector = selector ↔ Normal selector.toList := by
  constructor
  · intro h
    rw [← h]
    exact normal_normalize selector
  · intro h
    rw [normalize, normalizeChars, h.trim_eq, normalizeFrom_of_normal behind_start (by simp) h.spaced]
    exact String.ofList_toList

theorem normalize_normalize (selector : String) :
    normalize (normalize selector) = normalize selector :=
  normalize_eq_self_iff.mpr (normal_normalize selector)

end Selector

/-! ## Contexts -/

/-- All that contexts are compared by: the at-rules, the selector, and the pseudo-class and the
combinator at the end of the selector. -/
def Context.parts (context : Context) :
    List AtRule × String × Option String × Option Combinator :=
  (context.atRules, context.selector, context.pseudo?, context.combinator?)

/-- One pass of normalizing is enough: it gives a selector in normal form, and these are the selectors
that it leaves as they are.  So a context made of the at-rules and the selector of a context is that
context, and contexts are equal in all their parts iff their at-rules and normalized selectors are. -/
theorem Context.of_normalize (atRules atRules' : List AtRule) (selector selector' : String) :
    Selector.normalize (Selector.normalize selector) = Selector.normalize selector ∧
      (Selector.normalize selector = selector ↔ Selector.Normal selector.toList) ∧
      Context.of (Context.of atRules selector).atRules (Context.of atRules selector).selector =
        Context.of atRules selector ∧
      ((Context.of atRules selector).parts = (Context.of atRules' selector').parts ↔
        atRules = atRules' ∧ Selector.normalize selector = Selector.normalize selector') := by
  have hagain := Selector.normalize_normalize selector
  refine ⟨hagain, Selector.normalize_eq_self_iff, congrArg (Context.mk atRules) hagain, ?_⟩
  constructor
  · intro h
    obtain ⟨hrules, hrest⟩ := Prod.mk.inj h
    exact ⟨hrules, (Prod.mk.inj hrest).1⟩
  · rintro ⟨rfl, hselector⟩
    rw [Context.of, Context.of, hselector]

end AtomicStyle
