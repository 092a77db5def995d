import AtomicStyle.Proofs.Comments
import AtomicStyle.Proofs.Concatenation
import AtomicStyle.Proofs.RuleKeys

/-!
# Preludes with comments

A declaration and the prelude of a block are read into one prelude, with the comments in them, and
the comments are removed from it afterwards.

Results:
1. `Reading.foldlM_of_fillsPrelude`: the prelude that a text becomes.
2. `exists_of_read_semicolon`: the block of a text that is one declaration.
3. `eq_nested_of_read`: the block of a text that is one rule or at-rule.
-/

namespace AtomicStyle.CssText

open AtomicStyle.Css AtomicStyle.Text
open AtomicStyle.RuleText (skipGaps isGap exists_gaps skipGaps_ne_nil isGap_of_lex_skipGaps text_ne_nil)

/-! ## Texts of preludes -/

/-- The text can be read into one prelude, comments apart, and leaves no bracket open. -/
def FillsPrelude (s : List Char) : Prop :=
  ((lex true s).filter (!isComment ·)).foldlM bracketStep 0 = some 0

instance (s : List Char) : Decidable (FillsPrelude s) :=
  inferInstanceAs (Decidable (_ = _))

theorem FillsPrelude.closed {s : List Char} (h : FillsPrelude s) : Closed true s := by
  intro lexeme hmem
  cases hcomment : isComment lexeme with
  | true =>
    cases lexeme with
    | comment body => rfl
    | _ => cases hcomment
  | false =>
    obtain ⟨here, next, hstep⟩ := exists_bracketStep_of_mem h
      (List.mem_filter.mpr ⟨hmem, by simp [hcomment]⟩)
    exact isClosed_of_bracketStep hstep

theorem Balanced.isComment_eq_false {s : List Char} (h : Balanced s) :
    ∀ lexeme ∈ lex true s, isComment lexeme = false := by
  intro lexeme hmem
  have hkept := hmem
  rw [← filter_isComment h] at hkept
  simpa using (List.mem_filter.mp hkept).2

theorem Balanced.fillsPrelude {s : List Char} (h : Balanced s) : FillsPrelude s := by
  unfold FillsPrelude
  rw [filter_isComment h]
  exact h

/-- Two texts of preludes with a colon between them. -/
theorem FillsPrelude.append_colon {s t : List Char} (hs : FillsPrelude s) (ht : FillsPrelude t) :
    FillsPrelude (s ++ ':' :: t) := by
  unfold FillsPrelude
  rw [lex_append_cons hs.closed (by decide) (by decide), List.filter_append, List.foldlM_append, hs]
  exact ht

/-! ## Comments and blanks before a prelude -/

theorem trim_cons {c : Char} (hc : isBlank c = true) (s : List Char) : trim (c :: s) = trim s := by
  rw [trim, trimStart, List.dropWhile_cons_of_pos hc]
  rfl

/-- Comments and blanks before a prelude leave nothing behind. -/
theorem trim_stripComments_skipGaps (inComment : Bool) (s : List Char) :
    trim (stripComments (skipGaps inComment s)) = trim (stripCommentsFrom inComment s) := by
  fun_induction skipGaps inComment s with
  | case1 inComment => rw [stripComments, stripCommentsFrom, stripCommentsFrom]
  | case2 rest ih => rw [ih, stripCommentsFrom]
  | case3 c rest hend ih => rw [ih, stripCommentsFrom.eq_5 _ _ hend]
  | case4 rest ih => rw [ih, stripCommentsFrom]
  | case5 c rest hcomment hblank ih =>
    rw [ih, stripCommentsFrom.eq_3 _ _ hcomment, trim_cons (isBlank_of_isCssBlank hblank)]
  | case6 c rest => rfl

theorem bracketStep_of_isCssBlank {c : Char} (h : isCssBlank c = true) :
    bracketStep 0 (.plain c) = some 0 := by
  simp only [isCssBlank, Bool.or_eq_true, beq_iff_eq] at h
  rcases h with (((rfl | rfl) | rfl) | rfl) | rfl <;> rfl

/-- Comments and blanks open no brackets. -/
theorem foldlM_bracketStep_gaps {gaps : List Lexeme} (h : ∀ lexeme ∈ gaps, isGap lexeme = true) :
    (gaps.filter (!isComment ·)).foldlM bracketStep 0 = some 0 := by
  induction gaps with
  | nil => rfl
  | cons lexeme gaps ih =>
    obtain ⟨hlexeme, hgaps⟩ := List.forall_mem_cons.mp h
    cases lexeme with
    | comment body => exact ih hgaps
    | plain c =>
      rw [List.filter_cons_of_pos rfl, List.foldlM_cons, bracketStep_of_isCssBlank hlexeme]
      exact ih hgaps
    | _ => cases hlexeme

namespace Reading

variable {refs : List DynamicRef} {reading : Reading}

/-- Comments and blanks before a prelude are passed over. -/
theorem foldlM_gaps (hprelude : reading.prelude = none) {gaps : List Lexeme}
    (h : ∀ lexeme ∈ gaps, isGap lexeme = true) :
    ∃ place, gaps.foldlM (step refs) reading = .ok { reading with place } := by
  induction gaps generalizing reading with
  | nil => exact ⟨reading.place, rfl⟩
  | cons lexeme gaps ih =>
    obtain ⟨hlexeme, hgaps⟩ := List.forall_mem_cons.mp h
    have htake : reading.take refs lexeme = .ok reading := by
      unfold take
      rw [hprelude]
      cases lexeme with
      | comment body => rfl
      | plain c =>
        have hc : isCssBlank c = true := hlexeme
        dsimp only
        rw [hc]
        rfl
      | _ => cases hlexeme
    have hstep : reading.step refs lexeme =
        .ok { reading with place := reading.place + lexeme.text.length } := by
      unfold step
      rw [htake]
      rfl
    rw [List.foldlM_cons, hstep]
    exact @ih { reading with place := reading.place + lexeme.text.length } hprelude hgaps

/-- The prelude that has begun with the given text. -/
def begun (start : Nat) (text : List Char) : Option Prelude :=
  if text.isEmpty then none else some { start, text }

/-- A text of a prelude becomes the prelude that has begun, without the comments and blanks before
it. -/
theorem foldlM_of_fillsPrelude (hprelude : reading.prelude = none) {s : List Char}
    (h : FillsPrelude s) :
    ∃ start place, (lex true s).foldlM (step refs) reading = .ok { reading with
      place
      prelude := begun start (skipGaps false s) } := by
  obtain ⟨gaps, hlex, hgaps⟩ := @exists_gaps true false [] s h.closed
  have hlex : lex true s = gaps ++ lex true (skipGaps false s) := hlex
  have hrest : FillsPrelude (skipGaps false s) := by
    unfold FillsPrelude at h ⊢
    rw [hlex, List.filter_append, List.foldlM_append, foldlM_bracketStep_gaps hgaps] at h
    exact h
  obtain ⟨start, hstart⟩ := @foldlM_gaps refs reading hprelude gaps hgaps
  rw [hlex, List.foldlM_append, hstart]
  show ∃ _ place, (lex true (skipGaps false s)).foldlM (step refs) { reading with place := start } = _
  have htext := flatMap_text_lex true (skipGaps false s)
  cases hfirst : lex true (skipGaps false s) with
  | nil =>
    rw [hfirst] at htext
    rw [← htext, List.foldlM_nil]
    refine ⟨start, start, ?_⟩
    rw [hprelude]
    rfl
  | cons lexeme lexemes =>
    rw [hfirst] at htext
    have hgap := isGap_of_lex_skipGaps hfirst
    have hcomment : isComment lexeme = false := by
      cases lexeme with
      | comment body => cases hgap
      | _ => rfl
    have hblank : ∀ c, lexeme = .plain c → isCssBlank c = false := by
      rintro c rfl
      exact hgap
    unfold FillsPrelude at hrest
    rw [hfirst] at hrest
    have hnext := hrest
    rw [List.filter_cons_of_pos (by simp [hcomment]), List.foldlM_cons] at hnext
    obtain ⟨next, hnext, -⟩ := Option.bind_eq_some_iff.mp hnext
    have hne : (skipGaps false s).isEmpty = false := by
      rw [← htext]
      simp [text_ne_nil]
    refine ⟨start, start + (skipGaps false s).length, ?_⟩
    rw [List.foldlM_cons, @step_of_prelude_eq_none refs { reading with place := start } hprelude _ _
      hnext hblank, ← List.foldlM_cons, @foldlM_step_of_bracketStep refs
      { reading with place := start, prelude := some { start } } { start } rfl _ 0 hrest, htext,
      begun, hne]
    rfl

/-- An opening brace ends the prelude and opens a block around nothing. -/
theorem eq_of_openBlock {p : Prelude} {next : Reading} (h : reading.openBlock p = .ok next) :
    next = { reading with
      items := .nil
      around := ⟨trim (stripComments p.text), reading.place, reading.items⟩ :: reading.around
      prelude := none } := by
  unfold openBlock at h
  dsimp only at h
  split at h
  · cases h
  · split at h
    · cases h
    · cases h
      rfl

section Terminators

variable {start : Nat} {text : List Char} (hprelude : reading.prelude = begun start text)
  {next : Reading}

include hprelude

/-- A semicolon after a prelude makes a declaration of it. -/
theorem exists_of_step_semicolon (hne : text ≠ [])
    (h : reading.step refs (.plain ';') = .ok next) :
    ∃ d, declaration refs (trim (stripComments text)) = .ok d ∧ next = { reading with
      place := reading.place + 1
      items := reading.items ++ .declaration d .nil
      prelude := none } := by
  unfold step take at h
  rw [hprelude, begun, if_neg (by simpa using hne)] at h
  dsimp only at h
  rw [preludeStep_semicolon rfl] at h
  cases hdeclare : reading.declare refs { start, text } with
  | error fault =>
    rw [hdeclare] at h
    cases h
  | ok declared =>
    rw [hdeclare] at h
    cases h
    obtain ⟨d, hd, rfl⟩ := exists_of_declare hdeclare
    exact ⟨d, hd, rfl⟩

/-- An opening brace after a prelude opens a block with it. -/
theorem eq_of_step_openingBrace (h : reading.step refs (.plain '\x7b') = .ok next) :
    next = { reading with
      place := reading.place + 1
      items := .nil
      around := ⟨trim (stripComments text), reading.place, reading.items⟩ :: reading.around
      prelude := none } := by
  unfold step take at h
  rw [hprelude, begun] at h
  cases text with
  | nil => cases h
  | cons c text =>
    rw [List.isEmpty_cons, if_neg Bool.false_ne_true] at h
    dsimp only at h
    rw [preludeStep_openingBrace rfl] at h
    cases hopen : reading.openBlock { start, text := c :: text } with
    | error fault =>
      rw [hopen] at h
      cases h
    | ok opened =>
      rw [hopen] at h
      cases h
      rw [eq_of_openBlock hopen]
      rfl

end Terminators

end Reading

/-! ## One item -/

section Item

open Reading

variable {refs : List DynamicRef} {s : List Char} (h : FillsPrelude s) {block : Block}

include h

/-- A text of a prelude before a semicolon, if it is more than comments and blanks, is read to the
declaration that it spells without its comments. -/
theorem exists_of_read_semicolon (hne : ∃ lexeme ∈ lex true s, isGap lexeme = false)
    (hread : read refs (s ++ [';']) = .ok block) :
    ∃ d, declaration refs (trim (stripComments s)) = .ok d ∧ block = .declaration d .nil := by
  obtain ⟨last, hlast, hfinish⟩ := exists_of_read hread
  obtain ⟨start, place, hprelude⟩ := @foldlM_of_fillsPrelude refs {} rfl s h
  rw [lex_append_cons h.closed (by decide) (by decide), List.foldlM_append, hprelude] at hlast
  obtain ⟨ended, hended, hrest⟩ := exists_of_foldlM_cons hlast
  obtain ⟨d, hd, rfl⟩ := exists_of_step_semicolon rfl (skipGaps_ne_nil h.closed hne) hended
  cases hrest
  cases hfinish
  rw [trim_stripComments_skipGaps] at hd
  exact ⟨d, hd, rfl⟩

/-- A text of a prelude before a block is read to the rule or at-rule with this prelude, without its
comments. -/
theorem eq_nested_of_read {inner : List Char} {body : Block} (hinner : read refs inner = .ok body)
    (hend : inner.getLast? ≠ some '\\')
    (hread : read refs (s ++ '\x7b' :: (inner ++ ['\x7d'])) = .ok block) :
    block = nested (trim (stripComments s)) body := by
  obtain ⟨last, hlast, hfinish⟩ := exists_of_read hread
  obtain ⟨start, place, hprelude⟩ := @foldlM_of_fillsPrelude refs {} rfl s h
  rw [lex_append_cons h.closed (by decide) (by decide), List.foldlM_append, hprelude] at hlast
  obtain ⟨opened, hopened, hrest⟩ := exists_of_foldlM_cons hlast
  obtain rfl := eq_of_step_openingBrace rfl hopened
  obtain ⟨closed, hclosed⟩ := @foldlM_closingBrace refs { place := place + 1, around := [_] } inner
    body hinner hend rfl _ [] rfl []
  rw [hclosed] at hrest
  cases hrest
  cases hfinish
  rw [trim_stripComments_skipGaps]
  rfl

end Item

end AtomicStyle.CssText
