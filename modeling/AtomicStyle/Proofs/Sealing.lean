import AtomicStyle.Proofs.Collapsing
import AtomicStyle.Proofs.Lexing
import AtomicStyle.Style.Parser

/-!
# Sealed texts

A text is sealed if the reader of CSS text takes all of it into one prelude: its quoted texts and
escapes are complete, its brackets are balanced, no brace or semicolon ends it, and there is no
comment and no marker in it.

Results:
1. `Reading.foldlM_step_of_balanced`: a sealed text becomes the prelude that has begun.
2. `sealed_of_simple`: texts of characters that have no meaning in CSS text are sealed.
3. `collapse_trimmedEnd`: the blanks at the end of a sealed text do not count, if no quote is
   escaped outside quotes.
-/

namespace AtomicStyle.CssText

open AtomicStyle.Css AtomicStyle.Text

/-- Whether a lexeme is a comment that ends. -/
def isComment : Lexeme → Bool
  | .comment _ => true
  | _ => false

/-! ## Brackets -/

/-- The open brackets after one lexeme of a prelude; there are none if the lexeme ends the prelude or
cannot stand in it. -/
def bracketStep (depth : Nat) : Lexeme → Option Nat
  | .plain c =>
    if isOpening c then some (depth + 1)
    else if isClosing c then if depth == 0 then none else some (depth - 1)
    else if depth == 0 && (c == ';' || c == '\x7b' || c == '\x7d') then none
    else some depth
  | .escape _ | .quoted _ _ => some depth
  | _ => none

/-- The text can be read into one prelude and leaves no bracket open. -/
def Balanced (s : List Char) : Prop :=
  (lex true s).foldlM bracketStep 0 = some 0

instance (s : List Char) : Decidable (Balanced s) :=
  inferInstanceAs (Decidable (_ = _))

theorem isClosed_of_bracketStep {depth after : Nat} {lexeme : Lexeme}
    (h : bracketStep depth lexeme = some after) : lexeme.isClosed = true := by
  cases lexeme with
  | plain c => rfl
  | escape c => rfl
  | quoted quote body => rfl
  | comment body => rfl
  | loneEscape => cases h
  | openComment body => cases h
  | openQuote quote body => cases h

theorem exists_bracketStep_of_mem {lexemes : List Lexeme} {depth after : Nat}
    (h : lexemes.foldlM bracketStep depth = some after) {lexeme : Lexeme} (hmem : lexeme ∈ lexemes) :
    ∃ here next, bracketStep here lexeme = some next := by
  induction lexemes generalizing depth with
  | nil => cases hmem
  | cons first lexemes ih =>
    rw [List.foldlM_cons] at h
    obtain ⟨next, hnext, hrest⟩ := Option.bind_eq_some_iff.mp h
    cases hmem with
    | head => exact ⟨depth, next, hnext⟩
    | tail _ hmem => exact ih hrest hmem

/-- Without comments, nothing is left out. -/
theorem filter_isComment {lexemes : List Lexeme} {depth after : Nat}
    (h : lexemes.foldlM bracketStep depth = some after) :
    lexemes.filter (!isComment ·) = lexemes := by
  refine List.filter_eq_self.mpr fun lexeme hmem => ?_
  obtain ⟨here, next, hstep⟩ := exists_bracketStep_of_mem h hmem
  cases lexeme with
  | comment body => cases hstep
  | _ => rfl

theorem Balanced.closed {s : List Char} (h : Balanced s) : Closed true s := by
  intro lexeme hmem
  obtain ⟨here, next, hstep⟩ := exists_bracketStep_of_mem h hmem
  exact isClosed_of_bracketStep hstep

/-- Two balanced texts with a colon between them. -/
theorem Balanced.append_colon {s t : List Char} (hs : Balanced s) (ht : Balanced t) :
    Balanced (s ++ ':' :: t) := by
  unfold Balanced
  rw [lex_append_cons hs.closed (by decide) (by decide), List.foldlM_append, hs]
  exact ht

/-! ## Preludes -/

namespace Reading

variable {refs : List DynamicRef} {reading : Reading}

theorem preludeStep_of_bracketStep {p : Prelude} {c : Char} {depth : Nat}
    (h : bracketStep p.brackets (.plain c) = some depth) :
    reading.preludeStep refs p c = .ok (reading.extend { p with brackets := depth } [c]) := by
  rw [bracketStep] at h
  unfold preludeStep
  cases hopening : isOpening c with
  | true =>
    rw [hopening] at h
    cases h
    rfl
  | false =>
    rw [hopening] at h
    cases hclosing : isClosing c with
    | true =>
      rw [hclosing] at h
      cases hdepth : p.brackets == 0 with
      | true =>
        rw [hdepth] at h
        cases h
      | false =>
        rw [hdepth] at h
        cases h
        rfl
    | false =>
      rw [hclosing] at h
      cases hends : p.brackets == 0 && (c == ';' || c == '\x7b' || c == '\x7d') with
      | true =>
        rw [hends] at h
        cases h
      | false =>
        rw [hends] at h
        cases h
        rw [Bool.and_or_distrib_left, Bool.and_or_distrib_left, Bool.or_eq_false_iff,
          Bool.or_eq_false_iff] at hends
        rw [hends.1.1, hends.1.2, hends.2]
        rfl

/-- A lexeme that does not end the prelude is added to it. -/
theorem step_of_bracketStep {p : Prelude} (hprelude : reading.prelude = some p) {lexeme : Lexeme}
    {depth : Nat} (h : bracketStep p.brackets lexeme = some depth) :
    reading.step refs lexeme = .ok { reading with
      place := reading.place + lexeme.text.length
      prelude := some { p with text := p.text ++ lexeme.text, brackets := depth } } := by
  unfold step take
  rw [hprelude]
  cases lexeme with
  | plain c =>
    dsimp only
    rw [preludeStep_of_bracketStep h]
    rfl
  | escape c =>
    cases h
    rfl
  | quoted quote body =>
    cases h
    rfl
  | comment body => cases h
  | loneEscape => cases h
  | openComment body => cases h
  | openQuote quote body => cases h

/-- A lexeme that cannot be skipped begins a prelude. -/
theorem step_of_prelude_eq_none (hprelude : reading.prelude = none) {lexeme : Lexeme} {depth : Nat}
    (h : bracketStep 0 lexeme = some depth)
    (hblank : ∀ c, lexeme = .plain c → isCssBlank c = false) :
    reading.step refs lexeme =
      { reading with prelude := some { start := reading.place } }.step refs lexeme := by
  unfold step take
  rw [hprelude]
  cases lexeme with
  | plain c =>
    dsimp only
    have hends : ∀ d ∈ [';', '\x7d'], (c == d) = false := by
      intro d hd
      refine beq_eq_false_iff_ne.mpr ?_
      rintro rfl
      have hnone : ∀ e ∈ [';', '\x7d'], bracketStep 0 (.plain e) = none :=
        List.all_iff_forall_prop.mp (by decide)
      rw [hnone c hd] at h
      cases h
    rw [hblank c rfl, hends ';' (by simp), hends '\x7d' (by simp),
      @preludeStep_of_bracketStep refs reading { start := reading.place } c depth h,
      preludeStep_of_bracketStep h]
    rfl
  | escape c => rfl
  | quoted quote body => rfl
  | comment body => cases h
  | loneEscape => cases h
  | openComment body => cases h
  | openQuote quote body => cases h

theorem step_comment {p : Prelude} (hprelude : reading.prelude = some p) (body : List Char) :
    reading.step refs (.comment body) = .ok { reading with
      place := reading.place + (Lexeme.comment body).text.length
      prelude := some { p with text := p.text ++ (Lexeme.comment body).text } } := by
  unfold step take
  rw [hprelude]
  rfl

/-- Lexemes that do not end the prelude, and comments, are added to it one after the other. -/
theorem foldlM_step_of_bracketStep {p : Prelude} (hprelude : reading.prelude = some p)
    {lexemes : List Lexeme} {depth : Nat}
    (h : (lexemes.filter (!isComment ·)).foldlM bracketStep p.brackets = some depth) :
    lexemes.foldlM (step refs) reading = .ok { reading with
      place := reading.place + (lexemes.flatMap Lexeme.text).length
      prelude := some
        { p with text := p.text ++ lexemes.flatMap Lexeme.text, brackets := depth } } := by
  induction lexemes generalizing reading p with
  | nil =>
    cases h
    rw [List.flatMap_nil, List.append_nil, List.foldlM_nil]
    show Except.ok reading = Except.ok { reading with prelude := some p }
    rw [← hprelude]
  | cons lexeme lexemes ih =>
    rw [List.foldlM_cons, List.flatMap_cons, List.length_append, ← List.append_assoc,
      ← Nat.add_assoc]
    cases hcomment : isComment lexeme with
    | true =>
      rw [List.filter_cons_of_neg (by simp [hcomment])] at h
      cases lexeme with
      | comment body =>
        rw [step_comment hprelude]
        exact @ih _ { p with text := p.text ++ (Lexeme.comment body).text } rfl h
      | _ => cases hcomment
    | false =>
      rw [List.filter_cons_of_pos (by simp [hcomment]), List.foldlM_cons] at h
      obtain ⟨next, hnext, hrest⟩ := Option.bind_eq_some_iff.mp h
      rw [step_of_bracketStep hprelude hnext]
      exact @ih _ { p with text := p.text ++ lexeme.text, brackets := next } rfl hrest

/-- A balanced text that opens with no blank becomes the prelude that has begun. -/
theorem foldlM_step_of_balanced (hprelude : reading.prelude = none) {s : List Char}
    (h : Balanced s) {c : Char} (hhead : s.head? = some c) (hblank : isBlank c = false) :
    (lex true s).foldlM (step refs) reading = .ok { reading with
      place := reading.place + s.length
      prelude := some { start := reading.place, text := s } } := by
  have htext := flatMap_text_lex true s
  unfold Balanced at h
  cases hlex : lex true s with
  | nil =>
    rw [hlex] at htext
    cases htext
    cases hhead
  | cons lexeme lexemes =>
    rw [hlex] at h htext
    have hfirst := h
    rw [List.foldlM_cons] at hfirst
    obtain ⟨next, hnext, -⟩ := Option.bind_eq_some_iff.mp hfirst
    have hplain : ∀ d, lexeme = .plain d → isCssBlank d = false := by
      rintro d rfl
      cases htext
      cases hhead
      refine Bool.eq_false_iff.mpr fun hcss => ?_
      rw [isBlank_of_isCssBlank hcss] at hblank
      cases hblank
    rw [← filter_isComment h] at h
    rw [List.foldlM_cons, step_of_prelude_eq_none hprelude hnext hplain, ← List.foldlM_cons,
      @foldlM_step_of_bracketStep refs { reading with prelude := some { start := reading.place } }
        { start := reading.place } rfl _ 0 h, htext]
    rfl

end Reading

/-! ## Comments and markers -/

/-- No comment opens anywhere in the text, be it inside quotes. -/
def NoComment (s : List Char) : Prop :=
  cut? ['/', '*'] s = none

instance (s : List Char) : Decidable (NoComment s) :=
  inferInstanceAs (Decidable (_ = _))

theorem noComment_cons {c : Char} {rest : List Char} :
    NoComment (c :: rest) ↔ (c = '/' → rest.head? ≠ some '*') ∧ NoComment rest := by
  unfold NoComment
  rw [cut?_cons_eq_none]
  refine and_congr_left fun _ => ?_
  cases rest with
  | nil => simp
  | cons d rest => simp [eq_comm (a := c), eq_comm (a := d)]

theorem head?_append_ne {rest t : List Char} {c : Char} (hrest : rest.head? ≠ some c)
    (ht : t.head? ≠ some c) : (rest ++ t).head? ≠ some c := by
  cases rest with
  | nil => exact ht
  | cons d rest => exact hrest

theorem stripComments_append {s t : List Char} (h : NoComment s) (ht : t.head? ≠ some '*') :
    stripComments (s ++ t) = s ++ stripComments t := by
  unfold stripComments
  induction s with
  | nil => rfl
  | cons c s ih =>
    obtain ⟨hslash, hrest⟩ := noComment_cons.mp h
    rw [List.cons_append, stripCommentsFrom.eq_3, ih hrest, List.cons_append]
    rintro rest hc heq
    have hhead := head?_append_ne (hslash hc) ht
    rw [heq] at hhead
    exact hhead rfl

theorem stripComments_eq_self {s : List Char} (h : NoComment s) : stripComments s = s := by
  have happend := stripComments_append h (t := []) (by simp)
  rw [List.append_nil] at happend
  exact happend.trans (List.append_nil s)

/-- What the reader of CSS text takes into one prelude as it is. -/
structure Sealed (s : List Char) : Prop where
  balanced : Balanced s
  noComment : NoComment s
  noMarker : hasMarker s = false

instance (s : List Char) : Decidable (Sealed s) :=
  decidable_of_iff (Balanced s ∧ NoComment s ∧ hasMarker s = false)
    ⟨fun h => ⟨h.1, h.2.1, h.2.2⟩, fun h => ⟨h.balanced, h.noComment, h.noMarker⟩⟩

/-! ## Texts without quotes and brackets -/

/-- Whether a character belongs to no pair of quotes or brackets. -/
def isUnpaired (c : Char) : Bool :=
  !(isQuote c || isOpening c || isClosing c)

/-- Whether a text without quotes and brackets stays in one prelude: its escapes are complete, and
its braces and semicolons are escaped. -/
def isBare : List Char → Bool
  | [] => true
  | ['\\'] => false
  | '\\' :: _ :: rest => isBare rest
  | c :: rest => !(c == ';' || c == '\x7b' || c == '\x7d') && isBare rest

theorem balanced_iff_isBare {s : List Char} (hchars : ∀ c ∈ s, isUnpaired c = true)
    (hcomment : NoComment s) : Balanced s ↔ isBare s = true := by
  unfold Balanced lex
  fun_induction isBare s with
  | case1 => simp [lexFrom]
  | case2 => simp [lexFrom, bracketStep]
  | case3 c rest ih =>
    have hrest := ih (fun d hd => hchars d (List.mem_cons_of_mem _ (List.mem_cons_of_mem _ hd)))
      (noComment_cons.mp (noComment_cons.mp hcomment).2).2
    rw [lexFrom, List.foldlM_cons]
    exact hrest
  | case4 c rest hlone hescape ih =>
    obtain ⟨hslash, hcomment⟩ := noComment_cons.mp hcomment
    have hrest := ih (fun d hd => hchars d (List.mem_cons_of_mem _ hd)) hcomment
    have hc := hchars c List.mem_cons_self
    simp only [isUnpaired, Bool.not_or, Bool.and_eq_true, Bool.not_eq_true'] at hc
    have hne : c ≠ '\\' := by
      rintro rfl
      cases rest with
      | nil => exact hlone rfl rfl
      | cons d rest => exact hescape d rest rfl rfl
    have hstep : bracketStep 0 (.plain c) =
        if (c == ';' || c == '\x7b' || c == '\x7d') = true then none else some 0 := by
      rw [bracketStep, hc.1.2, hc.2]
      rfl
    rw [lexFrom_plain true hc.1.1 hne hslash, List.foldlM_cons, hstep]
    cases hends : c == ';' || c == '\x7b' || c == '\x7d' with
    | true => simp
    | false => exact hrest

/-- Whether a character has no meaning of its own in CSS text. -/
def isSimple (c : Char) : Bool :=
  !isBlank c && isUnpaired c && !":;\x7b\x7d\\/*@_".toList.contains c

/-- A character is none of those that have a meaning. -/
theorem ne_of_isSimple {c d : Char} (hc : isSimple c = true) (hd : isSimple d = false) : c ≠ d := by
  rintro rfl
  rw [hc] at hd
  cases hd

theorem isUnpaired_of_isSimple {c : Char} (hc : isSimple c = true) : isUnpaired c = true := by
  simp only [isSimple, Bool.and_eq_true] at hc
  exact hc.1.2

theorem isBlank_of_isSimple {c : Char} (hc : isSimple c = true) : isBlank c = false := by
  simp only [isSimple, Bool.and_eq_true, Bool.not_eq_true'] at hc
  exact hc.1.1

theorem isBare_cons {c : Char} (hne : c ≠ '\\') (rest : List Char) :
    isBare (c :: rest) = (!(c == ';' || c == '\x7b' || c == '\x7d') && isBare rest) :=
  isBare.eq_4 c rest (fun h => absurd h hne) (fun _ _ h => absurd h hne)

theorem isBare_cons_of_isSimple {c : Char} (hc : isSimple c = true) (rest : List Char) :
    isBare (c :: rest) = isBare rest := by
  rw [isBare_cons (ne_of_isSimple hc (by decide)),
    beq_eq_false_iff_ne.mpr (ne_of_isSimple hc (by decide)),
    beq_eq_false_iff_ne.mpr (ne_of_isSimple hc (by decide)),
    beq_eq_false_iff_ne.mpr (ne_of_isSimple hc (by decide))]
  rfl

theorem noComment_cons_of_isSimple {c : Char} (hc : isSimple c = true) {rest : List Char} :
    NoComment (c :: rest) ↔ NoComment rest := by
  rw [noComment_cons]
  exact and_iff_right fun hslash => absurd hslash (ne_of_isSimple hc (by decide))

section Simple

variable {s : List Char} (h : ∀ c ∈ s, isSimple c = true)

include h

theorem isBare_append_of_simple (t : List Char) : isBare (s ++ t) = isBare t := by
  induction s with
  | nil => rfl
  | cons c s ih =>
    rw [List.cons_append, isBare_cons_of_isSimple (h c List.mem_cons_self)]
    exact ih fun d hd => h d (List.mem_cons_of_mem _ hd)

theorem noComment_append_of_simple {t : List Char} : NoComment (s ++ t) ↔ NoComment t := by
  induction s with
  | nil => exact Iff.rfl
  | cons c s ih =>
    rw [List.cons_append, noComment_cons_of_isSimple (h c List.mem_cons_self)]
    exact ih fun d hd => h d (List.mem_cons_of_mem _ hd)

/-- A text of characters without a meaning is sealed. -/
theorem sealed_of_simple : Sealed s := by
  have hbare := isBare_append_of_simple h []
  have hcomment := (noComment_append_of_simple h).mpr (by decide : NoComment [])
  rw [List.append_nil] at hbare hcomment
  refine ⟨?_, hcomment, ?_⟩
  · exact (balanced_iff_isBare (fun c hc => isUnpaired_of_isSimple (h c hc)) hcomment).mpr hbare
  · have hmark : '_' ∉ s := fun hmem => ne_of_isSimple (h '_' hmem) (by decide) rfl
    unfold hasMarker
    rw [cut?_eq_none_of_not_mem (c := '_') (by decide) hmark]
    rfl

end Simple

/-! ## Quotes -/

/-- The state of collapsing belongs to the place in the reader of lexemes. -/
def Follows : LexMode → CollapseState → Prop
  | .between, state => state.quote = none
  | .inComment _, _ => True
  | .inQuote q _, state => isQuote q = true ∧ state.quote = some q ∧ state.escaped = false

/-- Whether collapsing reads a lexeme as the reader of lexemes does: there is no comment, and
outside quotes no quote is escaped. -/
def isReadAlike : Lexeme → Bool
  | .plain _ | .quoted _ _ => true
  | .escape c => !isQuote c
  | _ => false

/-- Outside quotes, a quote opens and nothing else does. -/
theorem quote_next {state : CollapseState} (h : state.quote = none) (c : Char) :
    (state.next c).quote = if isQuote c then some c else none := by
  obtain ⟨q, hq, -, -⟩ | ⟨-, hblank, -, hnext⟩ | ⟨-, -, -, hnext⟩ := state.step_cases c
  · rw [h] at hq
    cases hq
  · have hc : isQuote c = false := by
      refine Bool.eq_false_iff.mpr fun hc => ?_
      rw [isBlank_of_isQuote hc] at hblank
      cases hblank
    rw [hnext, hc]
    exact h
  · rw [hnext]

/-- After a text whose lexemes are read alike no quote is open. -/
theorem quote_foldl_next {mode : LexMode} {state : CollapseState} {s : List Char}
    (hmode : Follows mode state)
    (h : ∀ lexeme ∈ lexFrom true mode s, isReadAlike lexeme = true) :
    (s.foldl CollapseState.next state).quote = none := by
  -- Along the text, the state of collapsing follows the place of the reader (`Follows`).
  fun_induction lexFrom true mode s generalizing state with
  | case1 => exact hmode
  | case2 => exact absurd (h _ List.mem_cons_self) (by decide)
  | case3 c rest ih =>
    have hc : isQuote c = false := by
      simpa [isReadAlike] using h _ List.mem_cons_self
    refine ih ?_ fun lexeme hmem => h lexeme (List.mem_cons_of_mem _ hmem)
    show ((state.next '\\').next c).quote = none
    rw [quote_next (quote_next hmode '\\'), hc]
    rfl
  | case4 rest ih => exact ih trivial h
  | case5 c rest _ _ _ hquote ih =>
    refine ih ⟨hquote, ?_, ?_⟩ h
    · rw [quote_next hmode, if_pos hquote]
    · obtain ⟨q, hq, -, -⟩ | ⟨-, hblank, -, -⟩ | ⟨-, -, -, hnext⟩ := state.step_cases c
      · rw [hmode] at hq
        cases hq
      · rw [isBlank_of_isQuote hquote] at hblank
        cases hblank
      · rw [hnext]
  | case6 c rest _ _ _ hquote ih =>
    refine ih ?_ fun lexeme hmem => h lexeme (List.mem_cons_of_mem _ hmem)
    show (state.next c).quote = none
    rw [quote_next hmode, if_neg hquote]
  | case7 => exact absurd (h _ List.mem_cons_self) (by simp [isReadAlike])
  | case8 => exact absurd (h _ List.mem_cons_self) (by simp [isReadAlike])
  | case9 soFar c rest _ ih => exact ih trivial h
  | case10 => exact absurd (h _ List.mem_cons_self) (by simp [isReadAlike])
  | case11 q soFar c rest ih =>
    obtain ⟨hq, hquote, hescaped⟩ := hmode
    have hfirst : state.next '\\' = { state with escaped := true } := by
      rw [next_of_quote hquote, CollapseState.quotedStep, hescaped]
      rfl
    have hsecond : (state.next '\\').next c = { state with escaped := false } := by
      rw [hfirst, @next_of_quote { state with escaped := true } q hquote]
      rfl
    refine ih ⟨hq, ?_, ?_⟩ h
    · rw [hsecond]
      exact hquote
    · rw [hsecond]
  | case12 q soFar c rest _ hc ih =>
    obtain ⟨hq, hquote, hescaped⟩ := hmode
    refine ih ?_ fun lexeme hmem => h lexeme (List.mem_cons_of_mem _ hmem)
    have hne : (c == '\\') = false := by
      rw [beq_iff_eq.mp hc]
      exact beq_eq_false_iff_ne.mpr (ne_of_isQuote hq (by decide))
    show (state.next c).quote = none
    rw [next_of_quote hquote, CollapseState.quotedStep, hescaped, hne, hc]
    rfl
  | case13 => exact absurd (h _ List.mem_cons_self) (by simp [isReadAlike])
  | case14 q soFar c rest hescape hc _ ih =>
    obtain ⟨hq, hquote, hescaped⟩ := hmode
    have hne : (c == '\\') = false := by
      refine beq_eq_false_iff_ne.mpr ?_
      rintro rfl
      cases rest with
      | nil => exact absurd (h _ List.mem_cons_self) (by simp [isReadAlike])
      | cons d rest => exact hescape d rest rfl rfl
    have hsame : state.next c = state := by
      rw [next_of_quote hquote, CollapseState.quotedStep, hescaped, hne, Bool.eq_false_iff.mpr hc]
      rfl
    refine ih ?_ h
    rw [hsame]
    exact ⟨hq, hquote, hescaped⟩

/-- Whether a lexeme is an escaped quote outside quotes. -/
def isEscapedQuote : Lexeme → Bool
  | .escape c => isQuote c
  | _ => false

/-- No quote is escaped outside quotes. -/
def NoEscapedQuote (s : List Char) : Prop :=
  ∀ lexeme ∈ lex true s, isEscapedQuote lexeme = false

instance (s : List Char) : Decidable (NoEscapedQuote s) :=
  inferInstanceAs (Decidable (∀ lexeme ∈ lex true s, isEscapedQuote lexeme = false))

/-- Where no quote is escaped outside quotes, the blanks at the end of a text do not count. -/
theorem collapse_trimmedEnd {text : String} (h : Balanced text.toList)
    (hescape : NoEscapedQuote text.toList) : collapse (trimmedEnd text) = collapse text := by
  have hmode : Follows .between {} := rfl
  refine collapse_trimmedEnd_of_quote (quote_foldl_next_trimEnd
    (quote_foldl_next hmode fun lexeme hmem => ?_))
  obtain ⟨here, next, hstep⟩ := exists_bracketStep_of_mem h hmem
  cases lexeme with
  | plain c => rfl
  | escape c =>
    have hc : isQuote c = false := hescape _ hmem
    show (!isQuote c) = true
    rw [hc]
    rfl
  | quoted quote body => rfl
  | comment body => cases hstep
  | loneEscape => cases hstep
  | openComment body => cases hstep
  | openQuote quote body => cases hstep

end AtomicStyle.CssText
