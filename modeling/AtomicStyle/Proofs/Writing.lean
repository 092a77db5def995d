import AtomicStyle.Proofs.Bucketing

/-!
# Written selectors in CSS text

The selector of a rule is written with a class selector in the place of `&`.  For a reader of CSS text
that takes one character at a time, the class selector makes no other difference than `&` did: it
neither opens nor ends a comment, a quoted text or an escape.

Results:
1. `closed_iff_scan`: whether a text is closed, one character at a time.
2. `closed_selector_iff`: a written selector is closed iff the selector is.
3. `head?_opening_selector`: a written selector opens with `@` only if the selector does.
-/

namespace AtomicStyle

open AtomicStyle.Text AtomicStyle.RuleText

/-! ## One character at a time -/

namespace Css

/-- Where a reader stands that takes one character at a time. -/
inductive ScanState where
  | idle
  /-- After a slash, which may open a comment. -/
  | slash
  | escape
  | comment
  /-- After an asterisk in a comment, which may end it. -/
  | star
  | quote (q : Char)
  | quoteEscape (q : Char)
deriving DecidableEq

namespace ScanState

/-- The place after a character between comments and quoted texts. -/
def opened (c : Char) : ScanState :=
  if c == '\\' then escape else if c == '/' then slash else if isQuote c then quote c else idle

def next : ScanState → Char → ScanState
  | idle, c => opened c
  | slash, c => if c == '*' then comment else opened c
  | escape, _ => idle
  | comment, c => if c == '*' then star else comment
  | star, c => if c == '/' then idle else if c == '*' then star else comment
  | quote q, c => if c == '\\' then quoteEscape q else if c == q then idle else quote q
  | quoteEscape q, _ => quote q

/-- Whether a text may end here. -/
def isClosed : ScanState → Bool
  | idle | slash => true
  | _ => false

/-- The place of a reader of lexemes. -/
def ofMode : LexMode → ScanState
  | .between => idle
  | .inComment _ => comment
  | .inQuote q _ => quote q

theorem next_idle {c : Char} (hquote : isQuote c = false) (hescape : c ≠ '\\') (hslash : c ≠ '/') :
    idle.next c = idle := by
  show opened c = idle
  rw [opened, if_neg (by simpa using hescape), if_neg (by simpa using hslash), if_neg (by simp [hquote])]

theorem next_idle_of_isQuote {c : Char} (hc : isQuote c = true) : idle.next c = quote c := by
  have hescape : c ≠ '\\' := ne_of_isQuote hc (by decide)
  have hslash : c ≠ '/' := ne_of_isQuote hc (by decide)
  show opened c = quote c
  rw [opened, if_neg (by simpa using hescape), if_neg (by simpa using hslash), if_pos hc]

theorem next_slash {c : Char} (hc : c ≠ '*') : slash.next c = idle.next c :=
  if_neg (by simpa using hc)

theorem next_comment {c : Char} (hc : c ≠ '*') : comment.next c = comment :=
  if_neg (by simpa using hc)

theorem next_star {c : Char} (hc : c ≠ '/') : star.next c = comment.next c :=
  if_neg (by simpa using hc)

theorem next_quote {q c : Char} (hescape : c ≠ '\\') (hc : c ≠ q) : (quote q).next c = quote q := by
  show (if c == '\\' then _ else if c == q then _ else _) = quote q
  rw [if_neg (by simpa using hescape), if_neg (by simpa using hc)]

/-- A slash that no asterisk follows opens nothing. -/
theorem isClosed_foldl_slash {s : List Char} (h : s.head? ≠ some '*') :
    (s.foldl next slash).isClosed = (s.foldl next idle).isClosed := by
  cases s with
  | nil => rfl
  | cons c rest => rw [List.foldl_cons, List.foldl_cons, next_slash (by simpa using h)]

/-- An asterisk that no slash follows ends nothing. -/
theorem isClosed_foldl_star {s : List Char} (h : s.head? ≠ some '/') :
    (s.foldl next star).isClosed = (s.foldl next comment).isClosed := by
  cases s with
  | nil => rfl
  | cons c rest => rw [List.foldl_cons, List.foldl_cons, next_star (by simpa using h)]

/-- The lexemes of a text are all closed iff the text may end where it does. -/
theorem all_isClosed_lexFrom {mode : LexMode} (hmode : mode.IsSound) (s : List Char) :
    (lexFrom false mode s).all Lexeme.isClosed = (s.foldl next (ofMode mode)).isClosed := by
  fun_induction lexFrom false mode s with
  | case1 => rfl
  | case2 => rfl
  | case3 c rest ih => exact ih trivial
  | case4 rest ih => exact ih trivial
  | case5 c rest _ _ _ hquote ih =>
    rw [List.foldl_cons, ofMode, next_idle_of_isQuote hquote]
    exact ih hquote
  | case6 c rest hlone hescape hcomment hquote ih =>
    rw [List.all_cons, ih trivial]
    show (rest.foldl next idle).isClosed = (rest.foldl next (idle.next c)).isClosed
    by_cases hslash : c = '/'
    · subst hslash
      refine (isClosed_foldl_slash fun hstar => ?_).symm
      obtain ⟨rest', rfl⟩ := List.head?_eq_some_iff.mp hstar
      exact hcomment rest' rfl rfl
    · have hc : c ≠ '\\' := by
        rintro rfl
        cases rest with
        | nil => exact hlone rfl rfl
        | cons d rest => exact hescape d rest rfl rfl
      rw [next_idle (Bool.eq_false_iff.mpr hquote) hc hslash]
  | case7 => rfl
  | case8 soFar rest ih => exact ih trivial
  | case9 soFar c rest hend ih =>
    rw [ih trivial]
    show (rest.foldl next comment).isClosed = (rest.foldl next (comment.next c)).isClosed
    by_cases hstar : c = '*'
    · subst hstar
      refine (isClosed_foldl_star fun hslash => ?_).symm
      obtain ⟨rest', rfl⟩ := List.head?_eq_some_iff.mp hslash
      exact hend rest' rfl rfl
    · rw [next_comment hstar]
  | case10 => rfl
  | case11 q soFar c rest ih => exact ih hmode
  | case12 q soFar c rest hescape hc ih =>
    have hsame := beq_iff_eq.mp hc
    have hne : ¬ (c == '\\') = true := by
      rw [hsame]
      simpa using ne_of_isQuote hmode (by decide)
    rw [List.all_cons, ih trivial]
    show (rest.foldl next idle).isClosed =
      (rest.foldl next (if c == '\\' then _ else if c == q then _ else _)).isClosed
    rw [if_neg hne, if_pos hc]
  | case13 q soFar c rest hescape hc hline => cases hline
  | case14 q soFar c rest hescape hc hline ih =>
    rw [ih hmode]
    show (rest.foldl next (quote q)).isClosed = (rest.foldl next ((quote q).next c)).isClosed
    by_cases hlast : c = '\\'
    · subst hlast
      cases rest with
      | nil => rfl
      | cons d rest => exact (hescape d rest rfl rfl).elim
    · rw [next_quote hlast (by simpa using hc)]

/-! ## Texts that make no difference -/

/-- The quote of a quoted text is a quote. -/
def IsSound : ScanState → Prop
  | quote q | quoteEscape q => isQuote q = true
  | _ => True

theorem isSound_opened (c : Char) : (opened c).IsSound := by
  unfold opened
  split
  · trivial
  · split
    · trivial
    · split
      · next hquote => exact hquote
      · trivial

theorem IsSound.next {state : ScanState} (h : state.IsSound) (c : Char) :
    (state.next c).IsSound := by
  cases state with
  | idle => exact isSound_opened c
  | slash =>
    show (if c == '*' then _ else _ : ScanState).IsSound
    split
    · trivial
    · exact isSound_opened c
  | escape => trivial
  | comment =>
    show (if c == '*' then _ else _ : ScanState).IsSound
    split <;> trivial
  | star =>
    show (if c == '/' then _ else if c == '*' then _ else _ : ScanState).IsSound
    split
    · trivial
    · split <;> trivial
  | quote q =>
    show (if c == '\\' then _ else if c == q then _ else _ : ScanState).IsSound
    split
    · exact h
    · split
      · trivial
      · exact h
  | quoteEscape q => exact h

/-- Whether a character belongs to no comment's opening or end, to no quote and to no escape. -/
def isNeutral (c : Char) : Bool :=
  !isQuote c && c != '\\' && c != '/' && c != '*'

section Neutral

variable {state : ScanState}

/-- All neutral characters lead to the same place. -/
theorem next_of_isNeutral (h : state.IsSound) {c : Char} (hc : isNeutral c = true) :
    state.next c = state.next '&' := by
  simp only [isNeutral, Bool.and_eq_true, Bool.not_eq_true', bne_iff_ne] at hc
  obtain ⟨⟨⟨hquote, hescape⟩, hslash⟩, hstar⟩ := hc
  cases state with
  | idle => exact next_idle hquote hescape hslash
  | slash =>
    rw [next_slash hstar]
    exact next_idle hquote hescape hslash
  | escape => rfl
  | comment => exact next_comment hstar
  | star =>
    rw [next_star hslash]
    exact next_comment hstar
  | quote q =>
    have hq : ∀ d, isQuote d = false → d ≠ q := fun d hd => (ne_of_isQuote h hd).symm
    rw [next_quote hescape (hq c hquote), next_quote (by decide) (hq '&' (by decide))]
  | quoteEscape q => rfl

/-- There, neutral characters and whole escapes make no difference. -/
theorem next_next_neutral (h : state.IsSound) :
    (state.next '&').next '&' = state.next '&' ∧
      ((state.next '&').next '\\').next '#' = state.next '&' := by
  cases state with
  | quote q =>
    have hq : '&' ≠ q := (ne_of_isQuote h (by decide)).symm
    rw [next_quote (by decide) hq, next_quote (by decide) hq]
    exact ⟨rfl, rfl⟩
  | quoteEscape q =>
    have hq : '&' ≠ q := (ne_of_isQuote h (by decide)).symm
    exact ⟨next_quote (by decide) hq, rfl⟩
  | _ => exact ⟨rfl, rfl⟩

theorem foldl_of_isNeutral (h : state.IsSound) {s : List Char} (hs : ∀ c ∈ s, isNeutral c = true) :
    s.foldl next (state.next '&') = state.next '&' := by
  induction s with
  | nil => rfl
  | cons c rest ih =>
    rw [List.foldl_cons, next_of_isNeutral (h.next '&') (hs c List.mem_cons_self),
      (next_next_neutral h).1]
    exact ih fun d hd => hs d (List.mem_cons_of_mem c hd)

end Neutral

/-- A text in the place of which `&` may stand. -/
def Transparent (text : List Char) : Prop :=
  ∀ state : ScanState, state.IsSound → text.foldl next state = state.next '&'

/-- Putting such a text into a selector makes no difference. -/
theorem Transparent.foldl_renderFrom {text : List Char} (h : Transparent text) (s : List Char) :
    ∀ (q : Option Char) (state : ScanState), state.IsSound →
      (Selector.renderFrom text q s).foldl next state = s.foldl next state := by
  induction s with
  | nil => exact fun _ _ _ => rfl
  | cons c rest ih =>
    intro q state hstate
    rcases Selector.renderFrom_cons text q c with ⟨q', hkept⟩ | ⟨rfl, hput⟩
    · rw [hkept, List.foldl_cons, List.foldl_cons]
      exact ih q' _ (hstate.next c)
    · rw [hput, List.foldl_append, h state hstate, List.foldl_cons]
      exact ih none _ (hstate.next '&')

end ScanState

/-- Whether a text is closed, one character at a time. -/
theorem closed_iff_scan (s : List Char) :
    Closed false s ↔ (s.foldl ScanState.next .idle).isClosed = true := by
  have hmode : LexMode.between.IsSound := trivial
  have hall := ScanState.all_isClosed_lexFrom hmode s
  rw [show ScanState.idle = ScanState.ofMode .between from rfl, ← hall, List.all_eq_true]
  rfl

end Css

/-! ## The begin of a written selector -/

namespace RuleText

theorem skipGaps_of_not_gap {c : Char} {rest : List Char} (hcomment : c = '/' → rest.head? ≠ some '*')
    (hblank : isCssBlank c = false) : skipGaps false (c :: rest) = c :: rest := by
  rw [skipGaps.eq_5, if_neg (by simp [hblank])]
  rintro rest' hc rfl
  exact hcomment hc rfl

theorem skipGaps_true_cons {c : Char} {rest : List Char} (hend : c = '*' → rest.head? ≠ some '/') :
    skipGaps true (c :: rest) = skipGaps true rest := by
  rw [skipGaps.eq_3]
  rintro rest' hc rfl
  exact hend hc rfl

theorem skipGaps_true_append {text : List Char} (h : '*' ∉ text) (rest : List Char) :
    skipGaps true (text ++ rest) = skipGaps true rest := by
  induction text with
  | nil => rfl
  | cons c text ih =>
    obtain ⟨hc, htext⟩ := not_or.mp (fun hmem => h (List.mem_cons.mpr hmem))
    rw [List.cons_append, skipGaps_true_cons fun hstar => absurd hstar.symm hc, ih htext]

section Rendered

variable {text : List Char}

theorem renderFrom_of_ne (q : Option Char) {c : Char} (hc : c ≠ '&') :
    ∃ q', ∀ rest, Selector.renderFrom text q (c :: rest) = c :: Selector.renderFrom text q' rest := by
  rcases Selector.renderFrom_cons text q c with hkept | ⟨hself, -⟩
  · exact hkept
  · exact absurd hself hc

/-- Comments and blanks before a selector stand before the written selector. -/
theorem skipGaps_renderFrom (hhead : text.head? = some '.') (hstar : '*' ∉ text) (inComment : Bool)
    (s : List Char) (q : Option Char) :
    ∃ q', skipGaps inComment (Selector.renderFrom text q s) =
      Selector.renderFrom text q' (skipGaps inComment s) := by
  obtain ⟨tail, htext⟩ := List.head?_eq_some_iff.mp hhead
  have hne : text ≠ [] := by
    rw [htext]
    exact List.cons_ne_nil _ _
  -- the class selector begins with a dot, so it ends no comment and opens none
  have hnext : ∀ {d : Char}, d ≠ '.' → ∀ {q : Option Char} {rest : List Char},
      rest.head? ≠ some d → (Selector.renderFrom text q rest).head? ≠ some d := by
    intro d hd q rest hrest hwritten
    refine hrest (Selector.head?_of_head?_renderFrom hne ?_ hwritten)
    rw [hhead]
    exact fun h => hd (Option.some.inj h).symm
  fun_induction skipGaps inComment s generalizing q with
  | case1 inComment => exact ⟨none, by rw [Selector.renderFrom, skipGaps]; rfl⟩
  | case2 rest ih =>
    obtain ⟨q₁, hfirst⟩ := @renderFrom_of_ne text q '*' (by decide)
    obtain ⟨q₂, hsecond⟩ := @renderFrom_of_ne text q₁ '/' (by decide)
    rw [hfirst, hsecond, skipGaps]
    exact ih q₂
  | case3 c rest hend ih =>
    have hlater : ∀ q', c = '*' → (Selector.renderFrom text q' rest).head? ≠ some '/' := by
      intro q' hc
      refine hnext (by decide) fun hslash => ?_
      obtain ⟨rest', rfl⟩ := List.head?_eq_some_iff.mp hslash
      exact hend rest' hc rfl
    rcases Selector.renderFrom_cons text q c with ⟨q', hkept⟩ | ⟨-, hput⟩
    · rw [hkept, skipGaps_true_cons (hlater q')]
      exact ih q'
    · rw [hput, skipGaps_true_append hstar]
      exact ih none
  | case4 rest ih =>
    obtain ⟨q₁, hfirst⟩ := @renderFrom_of_ne text q '/' (by decide)
    obtain ⟨q₂, hsecond⟩ := @renderFrom_of_ne text q₁ '*' (by decide)
    rw [hfirst, hsecond, skipGaps]
    exact ih q₂
  | case5 c rest hcomment hblank ih =>
    have hc : ∀ {d : Char}, isBlank d = false → c ≠ d :=
      fun hd => Css.ne_of_isBlank (isBlank_of_isCssBlank hblank) hd
    obtain ⟨q', hkept⟩ := @renderFrom_of_ne text q c (hc (by decide))
    rw [hkept, skipGaps.eq_5 _ _ (fun _ hslash => absurd hslash (hc (by decide))), if_pos hblank]
    exact ih q'
  | case6 c rest hcomment hblank =>
    refine ⟨q, ?_⟩
    rcases Selector.renderFrom_cons text q c with ⟨q', hkept⟩ | ⟨-, hput⟩
    · rw [hkept, skipGaps_of_not_gap (fun hc => ?_) (Bool.eq_false_iff.mpr hblank)]
      refine hnext (by decide) fun hstar => ?_
      obtain ⟨rest', rfl⟩ := List.head?_eq_some_iff.mp hstar
      exact hcomment rest' hc rfl
    · rw [hput, htext, List.cons_append]
      exact skipGaps_of_not_gap (fun hc => absurd hc (by decide)) (by decide)

/-- A written selector opens with a character other than a dot only if the selector does. -/
theorem head?_opening_renderFrom (hhead : text.head? = some '.') (hstar : '*' ∉ text) {d : Char}
    (hd : d ≠ '.') {q : Option Char} {s : List Char}
    (h : (opening (Selector.renderFrom text q s)).head? = some d) : (opening s).head? = some d := by
  obtain ⟨q', hgaps⟩ := skipGaps_renderFrom hhead hstar false s q
  rw [opening, hgaps] at h
  rw [opening]
  generalize skipGaps false s = kept at h
  clear hgaps
  induction kept generalizing q' with
  | nil => exact h
  | cons c rest ih =>
    rcases Selector.renderFrom_cons text q' c with ⟨q'', hkept⟩ | ⟨-, hput⟩
    · rw [hkept] at h
      by_cases hc : isBlank c = true
      · rw [trimStart, List.dropWhile_cons_of_pos hc] at h ⊢
        exact ih q'' h
      · rw [trimStart, List.dropWhile_cons_of_neg hc] at h ⊢
        exact h
    · obtain ⟨tail, htext⟩ := List.head?_eq_some_iff.mp hhead
      rw [hput, htext, List.cons_append, trimStart, List.dropWhile_cons_of_neg (by decide)] at h
      exact absurd (Option.some.inj h).symm hd

end Rendered

end RuleText

/-! ## Class selectors -/

section Selectors

variable {rule : AtomicRule} {rendering : Rendering}

theorem isNeutral_of_mem_isIdentifier {name : String} (h : ClassName.isIdentifier name = true)
    {c : Char} (hc : c ∈ name.toList) : Css.ScanState.isNeutral c = true := by
  have hrange := ClassName.toNat_of_mem_isIdentifier h hc
  have hne : ∀ d : Char, d.toNat ∈ [34, 39, 92, 47, 42] → c ≠ d := by
    rintro d hd rfl
    simp only [List.mem_cons, List.not_mem_nil, or_false] at hd
    omega
  simp [Css.ScanState.isNeutral, isQuote, hne '"' (by decide), hne '\'' (by decide),
    hne '\\' (by decide), hne '/' (by decide), hne '*' (by decide)]

theorem transparent_classSelector
    (h : ClassName.isIdentifier (rule.cssClass rendering.compression) = true) :
    Css.ScanState.Transparent (rule.classSelector rendering).toList := by
  have hname : ∀ c ∈ (rule.cssClass rendering.compression).toList,
      Css.ScanState.isNeutral c = true := fun c hc => isNeutral_of_mem_isIdentifier h hc
  intro state hstate
  rw [toList_classSelector, List.foldl_cons,
    Css.ScanState.next_of_isNeutral hstate (by decide), List.foldl_append,
    Css.ScanState.foldl_of_isNeutral hstate hname]
  cases rendering.increaseSpecificity with
  | false => rfl
  | true =>
    have hboost : AtomicRule.specificityBoost.toList = ":not(#".toList ++ ['\\', '#', ')'] := rfl
    have hplain : ∀ c ∈ ":not(#".toList, Css.ScanState.isNeutral c = true :=
      List.all_eq_true.mp (by decide)
    rw [if_pos rfl, hboost, List.foldl_append, Css.ScanState.foldl_of_isNeutral hstate hplain]
    show ((((state.next '&').next '\\').next '#').next ')') = state.next '&'
    rw [(Css.ScanState.next_next_neutral hstate).2,
      Css.ScanState.next_of_isNeutral (hstate.next '&') (by decide),
      (Css.ScanState.next_next_neutral hstate).1]

/-- A written selector is closed iff the selector is. -/
theorem closed_selector_iff
    (h : ClassName.isIdentifier (rule.cssClass rendering.compression) = true) :
    Css.Closed false (rule.selector rendering).toList ↔
      Css.Closed false rule.context.selector.toList := by
  rw [Css.closed_iff_scan, Css.closed_iff_scan, AtomicRule.toList_selector,
    (transparent_classSelector h).foldl_renderFrom _ none .idle trivial]

/-- A written selector opens with `@` only if the selector does. -/
theorem head?_opening_selector
    (h : ClassName.isIdentifier (rule.cssClass rendering.compression) = true)
    (hat : (opening rule.context.selector.toList).head? ≠ some '@') :
    (opening (rule.selector rendering).toList).head? ≠ some '@' := by
  have hstar : '*' ∉ (rule.classSelector rendering).toList :=
    not_mem_classSelector h (by decide)
  intro hwritten
  rw [AtomicRule.toList_selector] at hwritten
  refine hat (head?_opening_renderFrom ?_ hstar (by decide) hwritten)
  rw [toList_classSelector]
  rfl

end Selectors

end AtomicStyle
