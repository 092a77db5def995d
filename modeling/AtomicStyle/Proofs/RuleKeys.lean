import AtomicStyle.Live.RuleText
import AtomicStyle.Proofs.Lexing
import AtomicStyle.Proofs.Words

/-!
# The keys of nested rules

A rule is a prelude and a block in braces, and an at-rule holds the rules inside it in the same way.
If preludes and declarations are closed and no brace in them counts, such a text is one rule, and
its keys are found inside all at-rules around it.

Results:
1. `exists_gaps`: the comments and blanks that a text opens with.
2. `Splitting.foldlM_skipGaps`: a rule begins after the comments and blanks before it.
3. `Splitting.foldlM_bracedChars`: a prelude with a balanced block is one rule.
4. `keysOf_atRule_of_splitChars`, `keysOf_bracedChars`: the keys of a rule.
-/

namespace AtomicStyle.RuleText

open AtomicStyle.Css AtomicStyle.Text

/-- A prelude with a block in braces. -/
def bracedChars (prelude body : List Char) : List Char :=
  prelude ++ '\x7b' :: (body ++ ['\x7d'])

/-! ## Texts without braces that count -/

/-- Whether a lexeme is complete and no brace. -/
def isInert : Lexeme → Bool
  | .plain c => c != '\x7b' && c != '\x7d'
  | lexeme => lexeme.isClosed

/-- A closed text in which no brace counts. -/
def Inert (s : List Char) : Prop :=
  ∀ lexeme ∈ lex false s, isInert lexeme = true

instance (s : List Char) : Decidable (Inert s) :=
  inferInstanceAs (Decidable (∀ lexeme ∈ lex false s, isInert lexeme = true))

theorem Inert.closed {s : List Char} (h : Inert s) : Closed false s := by
  intro lexeme hmem
  have hinert := h lexeme hmem
  cases lexeme with
  | plain c => rfl
  | _ => exact hinert

theorem text_ne_nil (lexeme : Lexeme) : lexeme.text ≠ [] := by
  cases lexeme <;> exact List.cons_ne_nil _ _

namespace Splitting

theorem extend_extend (state : Splitting) (s t : List Char) :
    (state.extend s).extend t = state.extend (s ++ t) := by
  simp [extend]

theorem step_plain {c : Char} (hopen : c ≠ '\x7b') (hclose : c ≠ '\x7d') (s : Splitting) :
    s.step (.plain c) = .ok (if isCssBlank c then s.extendBegun [c] else s.extend [c]) := by
  rw [step, if_neg (by simpa using hopen), if_neg (by simpa using hclose)]
  split
  · rfl
  · rfl

theorem extendBegun_of_begun {state : Splitting} (hbegun : state.current ≠ []) (text : List Char) :
    state.extendBegun text = state.extend text := by
  rw [extendBegun, if_neg]
  simpa using hbegun

/-- A rule that has begun keeps an inert lexeme. -/
theorem step_of_isInert {state : Splitting} {lexeme : Lexeme} (hbegun : state.current ≠ [])
    (h : isInert lexeme = true) : state.step lexeme = .ok (state.extend lexeme.text) := by
  cases lexeme with
  | plain c =>
    obtain ⟨hopening, hclosing⟩ := Bool.and_eq_true_iff.mp h
    rw [step_plain (bne_iff_ne.mp hopening) (bne_iff_ne.mp hclosing), extendBegun_of_begun hbegun,
      ite_self]
    rfl
  | comment body => exact congrArg Except.ok (extendBegun_of_begun hbegun _)
  | escape c => rfl
  | quoted quote body => rfl
  | loneEscape => cases h
  | openComment body => cases h
  | openQuote quote body => cases h

/-- A rule that has begun takes up inert lexemes as they are. -/
theorem foldlM_of_begun {lexemes : List Lexeme} {state : Splitting} (hbegun : state.current ≠ [])
    (h : ∀ lexeme ∈ lexemes, isInert lexeme = true) :
    lexemes.foldlM step state = .ok (state.extend (lexemes.flatMap Lexeme.text)) := by
  induction lexemes generalizing state with
  | nil => simp [extend, pure, Except.pure]
  | cons lexeme rest ih =>
    have hstep := step_of_isInert hbegun (h lexeme List.mem_cons_self)
    have hnext : (state.extend lexeme.text).current ≠ [] := by
      simp [extend, hbegun]
    have hrest := ih hnext fun l hl => h l (List.mem_cons_of_mem _ hl)
    rw [List.foldlM_cons, hstep, List.flatMap_cons, ← extend_extend]
    exact hrest

/-- So does a rule that begins with the first of them. -/
theorem foldlM_of_first {lexeme : Lexeme} {rest : List Lexeme}
    (h : ∀ l ∈ lexeme :: rest, isInert l = true)
    (hfirst : step {} lexeme = .ok (({} : Splitting).extend lexeme.text)) :
    (lexeme :: rest).foldlM step {} =
      .ok (({} : Splitting).extend ((lexeme :: rest).flatMap Lexeme.text)) := by
  have hbegun : (({} : Splitting).extend lexeme.text).current ≠ [] := text_ne_nil lexeme
  have hrest := foldlM_of_begun hbegun fun l hl => h l (List.mem_cons_of_mem _ hl)
  rw [List.foldlM_cons, hfirst]
  show List.foldlM step (({} : Splitting).extend lexeme.text) rest = _
  rw [hrest, extend_extend, List.flatMap_cons]

end Splitting

/-! ## The begin of a rule -/

/-- A text without the comments and CSS blanks that it opens with; the flag says whether it starts
inside a comment. -/
def skipGaps : Bool → List Char → List Char
  | _, [] => []
  | true, '*' :: '/' :: rest => skipGaps false rest
  | true, _ :: rest => skipGaps true rest
  | false, '/' :: '*' :: rest => skipGaps true rest
  | false, c :: rest => if isCssBlank c then skipGaps false rest else c :: rest

theorem skipGaps_suffix (inComment : Bool) (s : List Char) : skipGaps inComment s <:+ s := by
  fun_induction skipGaps inComment s with
  | case1 => exact List.suffix_refl []
  | case2 rest ih => exact ih.trans (List.suffix_append ['*', '/'] rest)
  | case3 c rest _ ih => exact ih.trans (List.suffix_cons c rest)
  | case4 rest ih => exact ih.trans (List.suffix_append ['/', '*'] rest)
  | case5 c rest _ _ ih => exact ih.trans (List.suffix_cons c rest)
  | case6 c rest => exact List.suffix_refl (c :: rest)

/-- The place in which a text is read that starts inside a comment or not. -/
def gapMode (inComment : Bool) (soFar : List Char) : LexMode :=
  if inComment then .inComment soFar else .between

/-- Whether a lexeme is a comment or a CSS blank. -/
def isGap : Lexeme → Bool
  | .comment _ => true
  | .plain c => isCssBlank c
  | _ => false

/-- The lexemes of a text are comments and blanks, and those of the rest. -/
theorem exists_gaps {oneLine inComment : Bool} {soFar s : List Char}
    (h : ∀ lexeme ∈ lexFrom oneLine (gapMode inComment soFar) s, lexeme.isClosed = true) :
    ∃ gaps, lexFrom oneLine (gapMode inComment soFar) s = gaps ++ lex oneLine (skipGaps inComment s) ∧
      ∀ lexeme ∈ gaps, isGap lexeme = true := by
  fun_induction skipGaps inComment s generalizing soFar with
  | case1 inComment =>
    cases inComment with
    | true => exact absurd (h _ List.mem_cons_self) Bool.false_ne_true
    | false => exact ⟨[], rfl, fun _ hmem => absurd hmem List.not_mem_nil⟩
  | case2 rest ih =>
    have hlex : lexFrom oneLine (gapMode true soFar) ('*' :: '/' :: rest) =
        .comment soFar.reverse :: lexFrom oneLine (gapMode false []) rest := by
      rw [gapMode, if_pos rfl, lexFrom]
      rfl
    rw [hlex] at h ⊢
    obtain ⟨gaps, hgaps, hall⟩ := ih fun lexeme hmem => h lexeme (List.mem_cons_of_mem _ hmem)
    exact ⟨_ :: gaps, congrArg _ hgaps, List.forall_mem_cons.mpr ⟨rfl, hall⟩⟩
  | case3 c rest hend ih =>
    have hlex : lexFrom oneLine (gapMode true soFar) (c :: rest) =
        lexFrom oneLine (gapMode true (c :: soFar)) rest := by
      refine lexFrom_inComment oneLine soFar ?_
      rintro rfl hslash
      obtain ⟨rest, rfl⟩ := List.head?_eq_some_iff.mp hslash
      exact hend rest rfl rfl
    rw [hlex] at h ⊢
    exact ih h
  | case4 rest ih =>
    have hlex : lexFrom oneLine (gapMode false soFar) ('/' :: '*' :: rest) =
        lexFrom oneLine (gapMode true []) rest := by
      rw [gapMode, if_neg Bool.false_ne_true, lexFrom]
      rfl
    rw [hlex] at h ⊢
    exact ih h
  | case5 c rest _ hblank ih =>
    have hlex : lexFrom oneLine (gapMode false soFar) (c :: rest) =
        .plain c :: lexFrom oneLine (gapMode false []) rest :=
      lexFrom_blank oneLine (isBlank_of_isCssBlank hblank) rest
    rw [hlex] at h ⊢
    obtain ⟨gaps, hgaps, hall⟩ := ih fun lexeme hmem => h lexeme (List.mem_cons_of_mem _ hmem)
    exact ⟨_ :: gaps, congrArg _ hgaps, List.forall_mem_cons.mpr ⟨hblank, hall⟩⟩
  | case6 c rest => exact ⟨[], rfl, fun _ hmem => absurd hmem List.not_mem_nil⟩

/-- What follows the comments and blanks opens with neither. -/
theorem skipGaps_eq_cons {inComment : Bool} {s rest : List Char} {c : Char}
    (h : skipGaps inComment s = c :: rest) :
    isCssBlank c = false ∧ (c = '/' → rest.head? ≠ some '*') := by
  fun_induction skipGaps inComment s with
  | case1 => cases h
  | case2 rest ih => exact ih h
  | case3 c rest _ ih => exact ih h
  | case4 rest ih => exact ih h
  | case5 c rest _ _ ih => exact ih h
  | case6 d rest' hcomment hblank =>
    obtain ⟨rfl, rfl⟩ := List.cons.inj h
    refine ⟨Bool.eq_false_iff.mpr hblank, fun hslash hstar => ?_⟩
    obtain ⟨tail, rfl⟩ := List.head?_eq_some_iff.mp hstar
    exact hcomment tail hslash rfl

theorem skipGaps_ne_nil {oneLine : Bool} {s : List Char} (h : Closed oneLine s)
    (hne : ∃ lexeme ∈ lex oneLine s, isGap lexeme = false) : skipGaps false s ≠ [] := by
  intro hnil
  obtain ⟨gaps, hlex, hgaps⟩ := @exists_gaps oneLine false [] s h
  rw [hnil] at hlex
  obtain ⟨lexeme, hmem, hgap⟩ := hne
  have hmem : lexeme ∈ gaps ++ [] := hlex ▸ hmem
  rw [List.append_nil] at hmem
  rw [hgaps lexeme hmem] at hgap
  cases hgap

/-- The first lexeme after the comments and blanks is none of them. -/
theorem isGap_of_lex_skipGaps {oneLine inComment : Bool} {s : List Char} {lexeme : Lexeme}
    {lexemes : List Lexeme} (h : lex oneLine (skipGaps inComment s) = lexeme :: lexemes) :
    isGap lexeme = false := by
  have htext := flatMap_text_lex oneLine (skipGaps inComment s)
  rw [h, List.flatMap_cons] at htext
  cases lexeme with
  | plain c => exact (skipGaps_eq_cons htext.symm).1
  | comment body => exact absurd rfl ((skipGaps_eq_cons htext.symm).2 rfl)
  | _ => rfl

namespace Splitting

/-- Comments and blanks before a rule are passed over. -/
theorem foldlM_gaps {gaps : List Lexeme} (h : ∀ lexeme ∈ gaps, isGap lexeme = true) :
    gaps.foldlM step {} = .ok {} := by
  induction gaps with
  | nil => rfl
  | cons lexeme gaps ih =>
    obtain ⟨hlexeme, hgaps⟩ := List.forall_mem_cons.mp h
    have hstep : step {} lexeme = .ok {} := by
      cases lexeme with
      | comment body => rfl
      | plain c =>
        have hc : isCssBlank c = true := hlexeme
        have hblank := isBlank_of_isCssBlank hc
        rw [step_plain (ne_of_isBlank hblank (by decide)) (ne_of_isBlank hblank (by decide)), if_pos hc]
        rfl
      | _ => cases hlexeme
    rw [List.foldlM_cons, hstep]
    exact ih hgaps

/-- Any other lexeme that is no brace begins a rule. -/
theorem step_of_not_isGap {lexeme : Lexeme} (hgap : isGap lexeme = false)
    (hinert : isInert lexeme = true) :
    step {} lexeme = .ok (({} : Splitting).extend lexeme.text) := by
  cases lexeme with
  | plain c =>
    have hc : ¬ isCssBlank c = true := Bool.eq_false_iff.mp hgap
    obtain ⟨hopening, hclosing⟩ := Bool.and_eq_true_iff.mp hinert
    rw [step_plain (bne_iff_ne.mp hopening) (bne_iff_ne.mp hclosing), if_neg hc]
    rfl
  | comment body => cases hgap
  | escape c => rfl
  | quoted quote body => rfl
  | loneEscape => cases hinert
  | openComment body => cases hinert
  | openQuote quote body => cases hinert

/-- A rule begins after the comments and blanks. -/
theorem foldlM_skipGaps {s : List Char} (h : Inert s) :
    (lex false s).foldlM step {} = .ok { current := skipGaps false s } := by
  obtain ⟨gaps, hlex, hgaps⟩ := @exists_gaps false false [] s h.closed
  have hlex : lex false s = gaps ++ lex false (skipGaps false s) := hlex
  have htext := flatMap_text_lex false (skipGaps false s)
  rw [hlex, List.foldlM_append, foldlM_gaps hgaps]
  show (lex false (skipGaps false s)).foldlM step {} = _
  cases hrest : lex false (skipGaps false s) with
  | nil =>
    rw [hrest] at htext
    rw [← htext]
    rfl
  | cons lexeme others =>
    have hinert : ∀ other ∈ lexeme :: others, isInert other = true := by
      intro other hother
      refine h other ?_
      rw [hlex, hrest]
      exact List.mem_append_right _ hother
    have hfirst := step_of_not_isGap (isGap_of_lex_skipGaps hrest) (hinert lexeme List.mem_cons_self)
    rw [hrest] at htext
    rw [foldlM_of_first hinert hfirst, htext]
    rfl

end Splitting

/-! ## Blocks -/

/-- A closed text that ends at the depth at which it begins, and never leaves it on the way. -/
structure Balanced (s : List Char) : Prop where
  closed : Closed false s
  passes : ∀ state : Splitting, state.current ≠ [] → 0 < state.depth →
    (lex false s).foldlM Splitting.step state = .ok (state.extend s)

theorem Inert.balanced {s : List Char} (h : Inert s) : Balanced s := by
  refine ⟨h.closed, fun state hbegun _ => ?_⟩
  rw [Splitting.foldlM_of_begun hbegun h, flatMap_text_lex]

theorem lex_bracedChars {prelude body : List Char} (hprelude : Closed false prelude)
    (hbody : Closed false body) :
    lex false (bracedChars prelude body) =
      lex false prelude ++ .plain '\x7b' :: (lex false body ++ [.plain '\x7d']) := by
  have hclose : lex false ['\x7d'] = [.plain '\x7d'] := rfl
  rw [bracedChars, lex_append_of_closed hprelude (by simp), lex_brace_cons false (Or.inl rfl),
    lex_append_of_closed hbody (by simp), hclose]

theorem closed_bracedChars {prelude body : List Char} (hprelude : Closed false prelude)
    (hbody : Closed false body) : Closed false (bracedChars prelude body) := by
  intro lexeme hmem
  rw [lex_bracedChars hprelude hbody] at hmem
  rcases List.mem_append.mp hmem with hmem | hmem
  · exact hprelude lexeme hmem
  rcases List.mem_cons.mp hmem with rfl | hmem
  · rfl
  rcases List.mem_append.mp hmem with hmem | hmem
  · exact hbody lexeme hmem
  · rw [List.mem_singleton.mp hmem]
    rfl

/-- Reading a balanced block: the closing brace meets the depth that the opening one has made. -/
theorem Splitting.foldlM_block {body : List Char} (hbody : Balanced body) (state : Splitting) :
    (Lexeme.plain '\x7b' :: (lex false body ++ [.plain '\x7d'])).foldlM step state =
      close { state.extend ('\x7b' :: body) with depth := state.depth + 1 } := by
  have hopen : state.step (.plain '\x7b') =
      .ok { state.extend ['\x7b'] with depth := state.depth + 1 } := rfl
  have hinside := hbody.passes { state.extend ['\x7b'] with depth := state.depth + 1 }
    (by simp [extend]) (Nat.succ_pos _)
  have hclose : ∀ last : Splitting, [Lexeme.plain '\x7d'].foldlM step last = last.close := by
    intro last
    rw [List.foldlM_cons]
    show (last.close >>= pure) = last.close
    exact bind_pure _
  rw [List.foldlM_cons, hopen]
  show (lex false body ++ [Lexeme.plain '\x7d']).foldlM step _ = _
  rw [List.foldlM_append, hinside]
  show [Lexeme.plain '\x7d'].foldlM step _ = _
  rw [hclose]
  simp [extend]

theorem balanced_bracedChars {prelude body : List Char} (hprelude : Inert prelude)
    (hbody : Balanced body) : Balanced (bracedChars prelude body) := by
  refine ⟨closed_bracedChars hprelude.closed hbody.closed, fun state hbegun hdepth => ?_⟩
  rw [lex_bracedChars hprelude.closed hbody.closed, List.foldlM_append,
    hprelude.balanced.passes state hbegun hdepth]
  show List.foldlM Splitting.step (state.extend prelude) _ = _
  rw [Splitting.foldlM_block hbody]
  -- the closing brace does not reach the outermost level
  obtain ⟨depth, hdepth⟩ : ∃ depth, state.depth = depth + 1 := ⟨state.depth - 1, by omega⟩
  simp [Splitting.close, Splitting.extend, hdepth, bracedChars]

/-! ## Whole rules -/

theorem getLast?_bracedChars (prelude body : List Char) :
    (bracedChars prelude body).getLast? = some '\x7d' := by
  have hsplit : bracedChars prelude body = prelude ++ '\x7b' :: body ++ ['\x7d'] := by
    simp [bracedChars]
  rw [hsplit, List.getLast?_concat]

/-- What the rule of a prelude begins with: neither comments nor blanks before it count. -/
def opening (prelude : List Char) : List Char :=
  trimStart (skipGaps false prelude)

theorem opening_suffix (prelude : List Char) : opening prelude <:+ prelude :=
  (List.dropWhile_suffix isBlank).trans (skipGaps_suffix false prelude)

theorem opening_eq_self {prelude : List Char} {c : Char} (hhead : prelude.head? = some c)
    (hblank : isBlank c = false) (hslash : c ≠ '/') : opening prelude = prelude := by
  obtain ⟨rest, rfl⟩ := List.head?_eq_some_iff.mp hhead
  have hcss : ¬ isCssBlank c = true := by
    intro hcss
    rw [isBlank_of_isCssBlank hcss] at hblank
    cases hblank
  rw [opening, skipGaps.eq_5 _ _ (fun _ h => absurd h hslash), if_neg hcss]
  exact trimStart_eq_self fun d hd => by rw [← Option.some.inj hd]; exact hblank

theorem trim_bracedChars (prelude body : List Char) :
    trim (bracedChars prelude body) = bracedChars (trimStart prelude) body := by
  have hbrace : trimStart ('\x7b' :: (body ++ ['\x7d'])) = '\x7b' :: (body ++ ['\x7d']) :=
    List.dropWhile_cons_of_neg (by decide)
  have hstart : trimStart (bracedChars prelude body) = bracedChars (trimStart prelude) body := by
    show List.dropWhile isBlank (prelude ++ _) = trimStart prelude ++ _
    rw [List.dropWhile_append]
    split
    · next hnil =>
      have hempty : trimStart prelude = [] := List.isEmpty_iff.mp hnil
      rw [hempty]
      exact hbrace
    · rfl
  have hhead : ∀ d, (bracedChars (trimStart prelude) body).head? = some d → isBlank d = false := by
    intro d hd
    rw [← hstart] at hd
    have hfirst := List.head?_dropWhile_not isBlank (bracedChars prelude body)
    rwa [← trimStart, hd] at hfirst
  have hself := trim_eq_self hhead fun d hd => by
    rw [← Option.some.inj ((getLast?_bracedChars _ body).symm.trans hd)]
    decide
  rw [trim, trimStart_eq_self hhead] at hself
  rw [trim, hstart, hself]

/-- A prelude with a balanced block is one rule. -/
theorem Splitting.foldlM_bracedChars {prelude body : List Char} (hprelude : Inert prelude)
    (hbody : Balanced body) :
    (lex false (bracedChars prelude body)).foldlM step {} =
      .ok { rules := [bracedChars (opening prelude) body] } := by
  rw [lex_bracedChars hprelude.closed hbody.closed, List.foldlM_append, foldlM_skipGaps hprelude]
  show List.foldlM step { current := skipGaps false prelude } _ = _
  rw [foldlM_block hbody]
  show Except.ok ({ rules := [trim (skipGaps false prelude ++ '\x7b' :: body ++ ['\x7d'])] } :
    Splitting) = _
  rw [List.append_assoc, List.cons_append, ← bracedChars, trim_bracedChars]
  rfl

theorem splitChars_braced {prelude body : List Char} (hprelude : Inert prelude)
    (hbody : Balanced body) {c : Char} (hhead : prelude.head? = some c)
    (hblank : isBlank c = false) (hslash : c ≠ '/') :
    splitChars (bracedChars prelude body) = .ok [bracedChars prelude body] := by
  rw [splitChars, Splitting.foldlM_bracedChars hprelude hbody, opening_eq_self hhead hblank hslash]
  rfl

/-! ## Keys -/

/-- An inert text that holds no opening brace at all, so that the first brace after it is the one
that opens its block. -/
structure IsPrelude (s : List Char) : Prop where
  inert : Inert s
  braceFree : '\x7b' ∉ s

instance (s : List Char) : Decidable (IsPrelude s) :=
  decidable_of_iff (Inert s ∧ '\x7b' ∉ s) ⟨fun h => ⟨h.1, h.2⟩, fun h => ⟨h.1, h.2⟩⟩

theorem ne_brace_of_not_mem {s : List Char} (h : '\x7b' ∉ s) : ∀ c ∈ s, (c != '\x7b') = true :=
  fun _ hc => bne_iff_ne.mpr (ne_of_mem_of_not_mem hc h)

theorem takeWhile_bracedChars {prelude : List Char} (h : '\x7b' ∉ prelude) (body : List Char) :
    (bracedChars prelude body).takeWhile (· != '\x7b') = prelude := by
  rw [bracedChars, List.takeWhile_append_of_pos (ne_brace_of_not_mem h),
    List.takeWhile_cons_of_neg (by decide), List.append_nil]

theorem blockText_bracedChars {prelude : List Char} (h : '\x7b' ∉ prelude) (body : List Char) :
    blockText (bracedChars prelude body) = body := by
  rw [blockText, bracedChars, List.dropWhile_append_of_pos (ne_brace_of_not_mem h),
    List.dropWhile_cons_of_neg (by decide), List.drop_one, List.tail_cons, List.dropLast_concat]

theorem mem_bracedChars (prelude body : List Char) : '\x7b' ∈ bracedChars prelude body :=
  List.mem_append_right _ List.mem_cons_self

theorem keys_eq_keysOf {css : String} {rules : List (List Char)}
    (h : splitChars css.toList = .ok rules) : keys css = keysOf rules := by
  rw [keys, split, h]
  show keysOf ((rules.map String.ofList).map String.toList) = _
  rw [List.map_map, String.toList_comp_ofList, List.map_id]

theorem keysOf_nil : keysOf [] = .ok [] := by
  rw [keysOf]

/-- The rules inside an at-rule come before those after it. -/
theorem keysOf_at {rule : List Char} (hbrace : '\x7b' ∈ rule) (hat : rule.head? = some '@')
    (rest : List (List Char)) :
    keysOf (rule :: rest) =
      ((splitChars (blockText rule)).mapError (.malformedRule (String.ofList (blockText rule)))).bind
        fun children => (keysOf children).bind fun inner => (keysOf rest).map (inner ++ ·) := by
  rw [keysOf, dif_pos hbrace, if_pos hat]
  split
  · next fault h =>
    rw [h]
    rfl
  · next children h =>
    conv => rhs; rw [h]
    show (keysOf children).bind _ = (keysOf children).bind _
    cases keysOf children with
    | error fault => rfl
    | ok inner =>
      show (keysOf rest).bind _ = (keysOf rest).map _
      cases keysOf rest with
      | error fault => rfl
      | ok others => rfl

/-- A rule that is no at-rule has one key: the first class of its selector, or else its text. -/
theorem keysOf_bracedChars {selector : List Char} (hbrace : '\x7b' ∉ selector)
    (hat : selector.head? ≠ some '@') (body : List Char) :
    keysOf [bracedChars selector body] =
      .ok [String.ofList ((firstClass? selector).getD (bracedChars selector body))] := by
  have hhead : ¬ (bracedChars selector body).head? = some '@' := by
    cases selector with
    | nil => simp [bracedChars]
    | cons c rest => exact hat
  rw [keysOf, dif_pos (mem_bracedChars selector body), if_neg hhead,
    takeWhile_bracedChars hbrace, keysOf]
  rfl

theorem keysOf_rule {selector : List Char} (hselector : IsPrelude selector)
    (hat : selector.head? ≠ some '@') {name : List Char} (hname : firstClass? selector = some name)
    (body : List Char) :
    keysOf [bracedChars selector body] = .ok [String.ofList name] := by
  rw [keysOf_bracedChars hselector.braceFree hat, hname]
  rfl

theorem keys_of_rule {css selector declaration name : String}
    (hsplit : splitChars css.toList = .ok [bracedChars selector.toList declaration.toList])
    (hselector : IsPrelude selector.toList) (hat : selector.toList.head? ≠ some '@')
    (hname : firstClass? selector.toList = some name.toList) : keys css = .ok [name] := by
  rw [keys_eq_keysOf hsplit, keysOf_rule hselector hat hname, String.ofList_toList]

/-- An at-rule around rules has the keys of these rules. -/
theorem keysOf_atRule_of_splitChars {prelude body : List Char} {rules : List (List Char)}
    (hbrace : '\x7b' ∉ prelude) (hat : prelude.head? = some '@') (hbody : splitChars body = .ok rules) :
    keysOf [bracedChars prelude body] = keysOf rules := by
  have hhead : (bracedChars prelude body).head? = some '@' := by
    obtain ⟨rest, rfl⟩ := List.head?_eq_some_iff.mp hat
    rfl
  rw [keysOf_at (mem_bracedChars prelude body) hhead, blockText_bracedChars hbrace, hbody, keysOf_nil]
  show (keysOf rules).bind _ = _
  cases keysOf rules with
  | error fault => rfl
  | ok keys => exact congrArg Except.ok (List.append_nil keys)

theorem keysOf_atRule {prelude body : List Char} (hprelude : IsPrelude prelude)
    (hat : prelude.head? = some '@') (hbody : splitChars body = .ok [body]) :
    keysOf [bracedChars prelude body] = keysOf [body] :=
  keysOf_atRule_of_splitChars hprelude.braceFree hat hbody

theorem keys_of_splitChars {css : String} (h : splitChars css.toList = .ok [css.toList]) :
    keys css = keysOf [css.toList] :=
  keys_eq_keysOf h

end AtomicStyle.RuleText
