import AtomicStyle.Css.Lexeme
import AtomicStyle.Text.Blank

/-!
# Closed CSS text

A text is closed if it leaves no comment, quoted text or escape open.  What follows a closed text is
read as if it stood alone, unless the two meet in the middle of a comment's opening.

Results:
1. `lexFrom_append`: the lexemes of a closed text come first.
2. `lex_append_of_closed`, `lex_append_of_getLast?`: closed texts in a row.
3. `lex_append_cons`: closed texts with a separator between them.
-/

namespace AtomicStyle.Css

open AtomicStyle.Text

/-! ## Reading one character -/

theorem ne_of_isQuote {c d : Char} (hc : isQuote c = true) (hd : isQuote d = false) : c ≠ d := by
  rintro rfl
  rw [hc] at hd
  cases hd

theorem lexFrom_quote (oneLine : Bool) {c : Char} (hc : isQuote c = true) (rest : List Char) :
    lexFrom oneLine .between (c :: rest) = lexFrom oneLine (.inQuote c []) rest := by
  have hescape : c ≠ '\\' := ne_of_isQuote hc (by decide)
  have hslash : c ≠ '/' := ne_of_isQuote hc (by decide)
  rw [lexFrom.eq_5 _ _ _ (fun h => absurd h hescape) (fun _ _ h => absurd h hescape)
    (fun _ h => absurd h hslash), if_pos hc]

theorem lexFrom_plain (oneLine : Bool) {c : Char} {rest : List Char} (hquote : isQuote c = false)
    (hescape : c ≠ '\\') (hcomment : c = '/' → rest.head? ≠ some '*') :
    lexFrom oneLine .between (c :: rest) = .plain c :: lexFrom oneLine .between rest := by
  rw [lexFrom.eq_5 _ _ _ (fun h => absurd h hescape) (fun _ _ h => absurd h hescape), if_neg]
  · rw [hquote]
    decide
  · rintro rest' hslash rfl
    exact hcomment hslash rfl

theorem ne_of_isBlank {c d : Char} (hc : isBlank c = true) (hd : isBlank d = false) : c ≠ d := by
  rintro rfl
  rw [hc] at hd
  cases hd

theorem lexFrom_blank (oneLine : Bool) {c : Char} (hc : isBlank c = true) (rest : List Char) :
    lexFrom oneLine .between (c :: rest) = .plain c :: lexFrom oneLine .between rest := by
  have hdouble : c ≠ '"' := ne_of_isBlank hc (by decide)
  have hsingle : c ≠ '\'' := ne_of_isBlank hc (by decide)
  exact lexFrom_plain oneLine (by simp [isQuote, hdouble, hsingle]) (ne_of_isBlank hc (by decide))
    fun hslash => absurd hslash (ne_of_isBlank hc (by decide))

theorem lexFrom_inComment (oneLine : Bool) (soFar : List Char) {c : Char} {rest : List Char}
    (h : c = '*' → rest.head? ≠ some '/') :
    lexFrom oneLine (.inComment soFar) (c :: rest) =
      lexFrom oneLine (.inComment (c :: soFar)) rest := by
  rw [lexFrom.eq_8]
  rintro rest' hstar rfl
  exact h hstar rfl

/-! ## Closed texts -/

/-- Whether a lexeme ends before the text does. -/
def Lexeme.isClosed : Lexeme → Bool
  | loneEscape | openComment _ | openQuote _ _ => false
  | _ => true

/-- No comment, quoted text or escape is left open. -/
def Closed (oneLine : Bool) (s : List Char) : Prop :=
  ∀ lexeme ∈ lex oneLine s, lexeme.isClosed = true

instance (oneLine : Bool) (s : List Char) : Decidable (Closed oneLine s) :=
  inferInstanceAs (Decidable (∀ lexeme ∈ lex oneLine s, lexeme.isClosed = true))

/-- The quote of a quoted text is a quote. -/
def LexMode.IsSound : LexMode → Prop
  | inQuote quote _ => isQuote quote = true
  | _ => True

/-- An end that a text does not have, what follows its first character does not have. -/
theorem getLast?_ne_of_cons {c d : Char} {rest : List Char}
    (h : (c :: rest).getLast? ≠ some d) : rest.getLast? ≠ some d := by
  intro hrest
  rw [List.getLast?_cons, hrest] at h
  exact h rfl

/-- Reading goes on after a closed text as from the start, unless a slash at its end and an asterisk
after it open a comment. -/
theorem lexFrom_append {oneLine : Bool} {mode : LexMode} (hmode : mode.IsSound) {s t : List Char}
    (h : ∀ lexeme ∈ lexFrom oneLine mode s, lexeme.isClosed = true)
    (ht : t.head? = some '*' → s.getLast? ≠ some '/') :
    lexFrom oneLine mode (s ++ t) = lexFrom oneLine mode s ++ lex oneLine t := by
  fun_induction lexFrom oneLine mode s with
  | case1 => rfl
  | case2 => exact absurd (h _ List.mem_cons_self) (by decide)
  | case3 c rest ih =>
    have hrest := ih trivial (fun lexeme hmem => h lexeme (List.mem_cons_of_mem _ hmem))
      fun hstar => getLast?_ne_of_cons (getLast?_ne_of_cons (ht hstar))
    rw [List.cons_append, List.cons_append, lexFrom, hrest, List.cons_append]
  | case4 rest ih =>
    rw [List.cons_append, List.cons_append, lexFrom]
    exact ih trivial h fun hstar => getLast?_ne_of_cons (getLast?_ne_of_cons (ht hstar))
  | case5 c rest _ _ _ hquote ih =>
    rw [List.cons_append, lexFrom_quote oneLine hquote]
    exact ih hquote h fun hstar => getLast?_ne_of_cons (ht hstar)
  | case6 c rest hlone hescape hcomment hquote ih =>
    have hrest := ih trivial (fun lexeme hmem => h lexeme (List.mem_cons_of_mem _ hmem))
      fun hstar => getLast?_ne_of_cons (ht hstar)
    have hc : c ≠ '\\' := by
      intro hc
      cases rest with
      | nil => exact hlone hc rfl
      | cons d rest => exact hescape d rest hc rfl
    have hslash : c = '/' → (rest ++ t).head? ≠ some '*' := by
      rintro rfl hstar
      cases rest with
      | nil => exact ht hstar rfl
      | cons d rest =>
        cases hstar
        exact hcomment rest rfl rfl
    rw [List.cons_append, lexFrom_plain oneLine (Bool.eq_false_iff.mpr hquote) hc hslash, hrest,
      List.cons_append]
  | case7 => exact absurd (h _ List.mem_cons_self) (by simp [Lexeme.isClosed])
  | case8 soFar rest ih =>
    have hrest := ih trivial (fun lexeme hmem => h lexeme (List.mem_cons_of_mem _ hmem))
      fun hstar => getLast?_ne_of_cons (getLast?_ne_of_cons (ht hstar))
    rw [List.cons_append, List.cons_append, lexFrom, hrest, List.cons_append]
  | case9 soFar c rest hend ih =>
    rw [List.cons_append, lexFrom_inComment oneLine soFar,
      ih trivial h fun hstar => getLast?_ne_of_cons (ht hstar)]
    rintro rfl hslash
    cases rest with
    | nil => exact absurd (h _ List.mem_cons_self) (by simp [Lexeme.isClosed])
    | cons d rest =>
      cases hslash
      exact hend rest rfl rfl
  | case10 => exact absurd (h _ List.mem_cons_self) (by simp [Lexeme.isClosed])
  | case11 q soFar c rest ih =>
    rw [List.cons_append, List.cons_append, lexFrom]
    exact ih hmode h fun hstar => getLast?_ne_of_cons (getLast?_ne_of_cons (ht hstar))
  | case12 q soFar c rest hescape hc ih =>
    have hrest := ih trivial (fun lexeme hmem => h lexeme (List.mem_cons_of_mem _ hmem))
      fun hstar => getLast?_ne_of_cons (ht hstar)
    have hne : c ≠ '\\' := by
      rw [beq_iff_eq.mp hc]
      exact ne_of_isQuote hmode (by decide)
    rw [List.cons_append, lexFrom.eq_11 _ _ _ _ _ (fun _ _ h => absurd h hne), if_pos hc, hrest,
      List.cons_append]
  | case13 => exact absurd (h _ List.mem_cons_self) (by simp [Lexeme.isClosed])
  | case14 q soFar c rest hescape hc hline ih =>
    have hside : ∀ d rest', c = '\\' → rest ++ t = d :: rest' → False := by
      intro d rest' hc' heq
      cases rest with
      | nil => exact absurd (h _ List.mem_cons_self) (by simp [Lexeme.isClosed])
      | cons e rest => exact hescape e rest hc' rfl
    rw [List.cons_append, lexFrom.eq_11 _ _ _ _ _ hside, if_neg hc, if_neg hline,
      ih hmode h fun hstar => getLast?_ne_of_cons (ht hstar)]

theorem lex_append_of_getLast? {oneLine : Bool} {s : List Char} (h : Closed oneLine s)
    (hs : s.getLast? ≠ some '/') (t : List Char) :
    lex oneLine (s ++ t) = lex oneLine s ++ lex oneLine t := by
  have hmode : LexMode.between.IsSound := trivial
  exact lexFrom_append hmode h fun _ => hs

theorem lex_append_of_closed {oneLine : Bool} {s t : List Char} (h : Closed oneLine s)
    (ht : t.head? ≠ some '*') : lex oneLine (s ++ t) = lex oneLine s ++ lex oneLine t := by
  have hmode : LexMode.between.IsSound := trivial
  exact lexFrom_append hmode h fun hstar => absurd hstar ht

theorem lex_brace_cons (oneLine : Bool) {c : Char} (hc : c = '\x7b' ∨ c = '\x7d')
    (rest : List Char) : lex oneLine (c :: rest) = .plain c :: lex oneLine rest := by
  rcases hc with rfl | rfl
  · exact lexFrom_plain oneLine (by decide) (by decide) fun h => absurd h (by decide)
  · exact lexFrom_plain oneLine (by decide) (by decide) fun h => absurd h (by decide)

/-- A character that opens or ends nothing separates a closed text from what follows. -/
theorem lex_append_cons {oneLine : Bool} {s : List Char} (h : Closed oneLine s) {c : Char}
    (hquote : isQuote c = false) (hc : c ∉ ['\\', '/', '*']) (t : List Char) :
    lex oneLine (s ++ c :: t) = lex oneLine s ++ .plain c :: lex oneLine t := by
  simp only [List.mem_cons, List.not_mem_nil, or_false, not_or] at hc
  rw [lex_append_of_closed h (by simpa using hc.2.2)]
  congr 1
  exact lexFrom_plain oneLine hquote hc.1 fun hslash => absurd hslash hc.2.1

/-- A backslash without a character after it is the last character. -/
theorem getLast?_of_loneEscape_mem {oneLine : Bool} {mode : LexMode} {s : List Char}
    (h : Lexeme.loneEscape ∈ lexFrom oneLine mode s) : s.getLast? = some '\\' := by
  have hcons : ∀ {c : Char} {rest : List Char}, rest.getLast? = some '\\' →
      (c :: rest).getLast? = some '\\' := by
    intro c rest hrest
    rw [List.getLast?_cons, hrest]
    rfl
  have htail : ∀ {lexeme : Lexeme} {rest : List Lexeme}, Lexeme.loneEscape ∈ lexeme :: rest →
      lexeme ≠ .loneEscape → .loneEscape ∈ rest :=
    fun hmem hne => (List.mem_cons.mp hmem).resolve_left hne.symm
  fun_induction lexFrom oneLine mode s with
  | case1 => exact absurd h List.not_mem_nil
  | case2 => rfl
  | case3 c rest ih => exact hcons (hcons (ih (htail h (by simp))))
  | case4 rest ih => exact hcons (hcons (ih h))
  | case5 c rest _ _ _ _ ih => exact hcons (ih h)
  | case6 c rest _ _ _ _ ih => exact hcons (ih (htail h (by simp)))
  | case7 => exact absurd (htail h (by simp)) List.not_mem_nil
  | case8 soFar rest ih => exact hcons (hcons (ih (htail h (by simp))))
  | case9 soFar c rest _ ih => exact hcons (ih h)
  | case10 => exact absurd (htail h (by simp)) List.not_mem_nil
  | case11 q soFar c rest ih => exact hcons (hcons (ih h))
  | case12 q soFar c rest _ _ ih => exact hcons (ih (htail h (by simp)))
  | case13 => exact absurd (htail h (by simp)) List.not_mem_nil
  | case14 q soFar c rest _ _ _ ih => exact hcons (ih h)

end AtomicStyle.Css
