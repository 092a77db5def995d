import AtomicStyle.Proofs.Sealing

/-!
# Comments

Two readers decide what a comment is.  The reader of lexemes knows quoted texts and escapes;
`stripComments` knows neither and takes every opening of a comment for one.  They agree on a text just
if no comment seems to open inside a quoted text or after a backslash.

Results:
1. `stripComments_eq`: the removed characters by their places (`commentMarks`).
2. `commentMarks_eq_iff`: the texts on which the two readers agree.
3. `stripComments_append_of_legible`: what is left of such a text, whatever follows.
4. `legible_iff_noComment`: such texts without comments.
-/

namespace AtomicStyle.CssText

open AtomicStyle.Css AtomicStyle.Text

/-- Pairs every character of a lexeme with whether the lexeme is a comment. -/
def marks (lexeme : Lexeme) : List (Char × Bool) :=
  lexeme.text.map (·, isComment lexeme)

/-- The text of lexemes without the comments among them. -/
def uncommented (lexemes : List Lexeme) : List Char :=
  (lexemes.filter (!isComment ·)).flatMap Lexeme.text

/-! ## Removed characters -/

/-- Pairs every character with whether it is removed as part of a comment, read inside or outside of
one. -/
def commentMarksFrom : Bool → List Char → List (Char × Bool)
  | _, [] => []
  | false, '/' :: '*' :: rest => ('/', true) :: ('*', true) :: commentMarksFrom true rest
  | false, c :: rest => (c, false) :: commentMarksFrom false rest
  | true, '*' :: '/' :: rest => ('*', true) :: ('/', true) :: commentMarksFrom false rest
  | true, c :: rest => (c, true) :: commentMarksFrom true rest

/-- Pairs every character of a text with whether it is removed as part of a comment. -/
def commentMarks (s : List Char) : List (Char × Bool) :=
  commentMarksFrom false s

theorem unmark_commentMarksFrom (inside : Bool) (s : List Char) :
    unmark (commentMarksFrom inside s) = s := by
  unfold unmark
  fun_induction commentMarksFrom inside s with
  | case1 => rfl
  | case2 rest ih => rw [List.map_cons, List.map_cons, ih]
  | case3 c rest _ ih => rw [List.map_cons, ih]
  | case4 rest ih => rw [List.map_cons, List.map_cons, ih]
  | case5 c rest _ ih => rw [List.map_cons, ih]

theorem stripCommentsFrom_eq (inside : Bool) (s : List Char) :
    stripCommentsFrom inside s = unmark ((commentMarksFrom inside s).filter (!·.2)) := by
  fun_induction commentMarksFrom inside s with
  | case1 => rw [stripCommentsFrom]; rfl
  | case2 rest ih => rw [stripCommentsFrom, ih]; rfl
  | case3 c rest hopen ih => rw [stripCommentsFrom.eq_3 _ _ hopen, ih]; rfl
  | case4 rest ih => rw [stripCommentsFrom, ih]; rfl
  | case5 c rest hclose ih => rw [stripCommentsFrom.eq_5 _ _ hclose, ih]; rfl

theorem unmark_commentMarks (s : List Char) : unmark (commentMarks s) = s :=
  unmark_commentMarksFrom false s

/-- What is left of a text are the characters that are not marked. -/
theorem stripComments_eq (s : List Char) :
    stripComments s = unmark ((commentMarks s).filter (!·.2)) :=
  stripCommentsFrom_eq false s

theorem commentMarks_cons {c : Char} {rest : List Char} (h : c = '/' → rest.head? ≠ some '*') :
    commentMarks (c :: rest) = (c, false) :: commentMarks rest := by
  unfold commentMarks
  refine commentMarksFrom.eq_3 c rest ?_
  rintro rest' hc rfl
  exact h hc rfl

/-- A text in which no comment seems to open stays, whatever follows. -/
theorem commentMarks_append {s t : List Char} (h : NoComment s)
    (ht : t.head? = some '*' → s.getLast? ≠ some '/') :
    commentMarks (s ++ t) = s.map (·, false) ++ commentMarks t := by
  induction s with
  | nil => rfl
  | cons c s ih =>
    obtain ⟨hslash, hrest⟩ := noComment_cons.mp h
    have hc : c = '/' → (s ++ t).head? ≠ some '*' := by
      rintro rfl hstar
      cases s with
      | nil => exact ht hstar rfl
      | cons d s => exact hslash rfl hstar
    rw [List.cons_append, commentMarks_cons hc, ih hrest fun hstar => getLast?_ne_of_cons (ht hstar)]
    rfl

/-- If no character of a text is removed, no comment seems to open in it. -/
theorem noComment_of_commentMarks {s t : List Char} {others : List (Char × Bool)}
    (h : commentMarks (s ++ t) = s.map (·, false) ++ others) : NoComment s := by
  induction s with
  | nil => decide
  | cons c s ih =>
    by_cases hc : c = '/' ∧ (s ++ t).head? = some '*'
    · obtain ⟨rfl, hstar⟩ := hc
      obtain ⟨rest, hrest⟩ := List.head?_eq_some_iff.mp hstar
      rw [List.cons_append, hrest] at h
      cases h
    · have hslash : c = '/' → (s ++ t).head? ≠ some '*' := fun hc' hstar => hc ⟨hc', hstar⟩
      rw [List.cons_append, commentMarks_cons hslash] at h
      refine noComment_cons.mpr ⟨fun hc' hstar => hslash hc' ?_, ih (List.cons.inj h).2⟩
      obtain ⟨rest, rfl⟩ := List.head?_eq_some_iff.mp hstar
      rfl

theorem commentMarks_eq_self_iff {s : List Char} :
    commentMarks s = s.map (·, false) ↔ NoComment s := by
  constructor
  · intro h
    refine @noComment_of_commentMarks s [] [] ?_
    rw [List.append_nil, h, List.append_nil]
  · intro h
    have happend := @commentMarks_append s [] h fun hstar => by cases hstar
    rwa [List.append_nil, show commentMarks [] = [] from rfl, List.append_nil] at happend

/-! ## Legible texts -/

/-- Whether a comment seems to open inside a quoted text. -/
def hidesComment : Lexeme → Bool
  | .quoted _ body => (cut? ['/', '*'] body).isSome
  | _ => false

/-- No comment seems to open inside a quoted text or after a backslash. -/
structure Legible (lexemes : List Lexeme) : Prop where
  quoted : ∀ lexeme ∈ lexemes, hidesComment lexeme = false
  escape : ¬ [.escape '/', .plain '*'] <:+: lexemes

instance (lexemes : List Lexeme) : Decidable (Legible lexemes) :=
  decidable_of_iff ((∀ lexeme ∈ lexemes, hidesComment lexeme = false) ∧
      ¬ [.escape '/', .plain '*'] <:+: lexemes)
    ⟨fun h => ⟨h.1, h.2⟩, fun h => ⟨h.quoted, h.escape⟩⟩

theorem legible_nil : Legible [] where
  quoted := by simp
  escape := by simp

theorem legible_cons {lexeme : Lexeme} {lexemes : List Lexeme} :
    Legible (lexeme :: lexemes) ↔ hidesComment lexeme = false ∧
      (lexeme = .escape '/' → lexemes.head? ≠ some (.plain '*')) ∧ Legible lexemes := by
  have hpart : [.escape '/', .plain '*'] <:+: lexeme :: lexemes ↔
      (lexeme = .escape '/' ∧ lexemes.head? = some (.plain '*')) ∨
        [.escape '/', .plain '*'] <:+: lexemes := by
    rw [List.infix_cons_iff, List.cons_prefix_cons, eq_comm (a := lexeme)]
    cases lexemes with
    | nil => simp
    | cons next lexemes => simp [eq_comm (a := next)]
  constructor
  · intro h
    refine ⟨h.quoted lexeme List.mem_cons_self, fun hescape hstar => ?_, fun other hother => ?_, ?_⟩
    · exact h.escape (hpart.mpr (Or.inl ⟨hescape, hstar⟩))
    · exact h.quoted other (List.mem_cons_of_mem _ hother)
    · exact fun hrest => h.escape (hpart.mpr (Or.inr hrest))
  · rintro ⟨hlexeme, hescape, hrest⟩
    refine ⟨List.forall_mem_cons.mpr ⟨hlexeme, hrest.quoted⟩, fun h => ?_⟩
    rcases hpart.mp h with ⟨hslash, hstar⟩ | h
    · exact hescape hslash hstar
    · exact hrest.escape h

/-- A lexeme with nothing to hide that is not an escaped slash changes nothing. -/
theorem legible_cons_of_ne {lexeme : Lexeme} {lexemes : List Lexeme}
    (hlexeme : hidesComment lexeme = false) (hne : lexeme ≠ .escape '/') :
    Legible (lexeme :: lexemes) ↔ Legible lexemes := by
  rw [legible_cons]
  exact ⟨fun h => h.2.2, fun h => ⟨hlexeme, fun heq => absurd heq hne, h⟩⟩

theorem legible_quoted_cons {quote : Char} {body : List Char} {lexemes : List Lexeme} :
    Legible (.quoted quote body :: lexemes) ↔ NoComment body ∧ Legible lexemes := by
  have hhides : hidesComment (.quoted quote body) = false ↔ NoComment body := by
    unfold hidesComment NoComment
    rw [Option.isSome_eq_false_iff, Option.isNone_iff_eq_none]
  rw [legible_cons, hhides]
  exact ⟨fun h => ⟨h.1, h.2.2⟩, fun h => ⟨h.1, by simp, h.2⟩⟩

/-! ## Agreement -/

/-- What `commentMarks` gives for a text that is read from a place between or inside lexemes. -/
def marksFrom : LexMode → List Char → List (Char × Bool)
  | .between, s => commentMarks s
  | .inComment soFar, s => ('/' :: '*' :: soFar.reverse).map (·, true) ++ commentMarksFrom true s
  | .inQuote quote soFar, s => commentMarks (quote :: (soFar.reverse ++ s))

/-- An asterisk outside comments and quotes is a plain character. -/
theorem head?_lex_star {oneLine : Bool} {s : List Char} :
    (lex oneLine s).head? = some (.plain '*') ↔ s.head? = some '*' := by
  unfold lex
  cases s with
  | nil => simp [lexFrom]
  | cons c rest =>
    by_cases hstar : c = '*'
    · subst hstar
      rw [lexFrom_plain oneLine (by decide) (by decide) fun h => absurd h (by decide)]
      simp
    · have htext := flatMap_text_lexFrom oneLine .between (c :: rest)
      constructor
      · intro h
        obtain ⟨lexemes, hlex⟩ := List.head?_eq_some_iff.mp h
        rw [hlex] at htext
        exact absurd (List.cons.inj htext).1.symm hstar
      · intro h
        exact absurd (Option.some.inj h) hstar

/-- An escape stays, unless it is a slash before an asterisk. -/
theorem commentMarks_escape_iff {c : Char} {t : List Char} {others : List (Char × Bool)} :
    commentMarks ('\\' :: c :: t) = marks (.escape c) ++ others ↔
      (c = '/' → t.head? ≠ some '*') ∧ commentMarks t = others := by
  rw [commentMarks_cons fun h => absurd h (by decide)]
  by_cases hc : c = '/' ∧ t.head? = some '*'
  · obtain ⟨rfl, hstar⟩ := hc
    refine iff_of_false (fun h => ?_) fun h => h.1 rfl hstar
    obtain ⟨rest, rfl⟩ := List.head?_eq_some_iff.mp hstar
    cases h
  · have hslash : c = '/' → t.head? ≠ some '*' := fun hslash hstar => hc ⟨hslash, hstar⟩
    rw [commentMarks_cons hslash]
    show ('\\', false) :: (c, false) :: commentMarks t = ('\\', false) :: (c, false) :: others ↔ _
    rw [List.cons_inj_right, List.cons_inj_right]
    exact (and_iff_right hslash).symm

theorem noComment_quoted_iff {quote : Char} (hquote : isQuote quote = true) {body : List Char} :
    NoComment (Lexeme.quoted quote body).text ↔ NoComment body := by
  have hslash : quote ≠ '/' := ne_of_isQuote hquote (by decide)
  have hstar : quote ≠ '*' := ne_of_isQuote hquote (by decide)
  refine ⟨cut?_eq_none_of_part ⟨[quote], [quote], by simp [Lexeme.text]⟩, fun hbody => ?_⟩
  refine noComment_cons.mpr ⟨fun heq => absurd heq hslash, commentMarks_eq_self_iff.mp ?_⟩
  have hlast : commentMarks [quote] = [(quote, false)] := commentMarks_cons fun h => absurd h hslash
  have hhead : [quote].head? ≠ some '*' := fun h => hstar (Option.some.inj h)
  rw [commentMarks_append hbody fun h => absurd h hhead, hlast, List.map_append]
  rfl

/-- A quoted text stays, unless a comment seems to open in it. -/
theorem commentMarks_quoted_iff {quote : Char} (hquote : isQuote quote = true) {body t : List Char}
    {others : List (Char × Bool)} :
    commentMarks ((Lexeme.quoted quote body).text ++ t) = marks (.quoted quote body) ++ others ↔
      NoComment body ∧ commentMarks t = others := by
  have hlast : (Lexeme.quoted quote body).text.getLast? ≠ some '/' := by
    rw [Lexeme.text, ← List.cons_append, List.getLast?_concat]
    exact fun heq => ne_of_isQuote hquote (by decide) (Option.some.inj heq)
  rw [← noComment_quoted_iff hquote]
  constructor
  · intro h
    have htext := noComment_of_commentMarks h
    rw [commentMarks_append htext fun _ => hlast] at h
    exact ⟨htext, List.append_cancel_left h⟩
  · rintro ⟨htext, rfl⟩
    exact commentMarks_append htext fun _ => hlast

/-- Before a text that does not open with an asterisk, the comments of a closed text are those that are
removed just if the text is legible. -/
theorem marksFrom_append_iff {mode : LexMode} (hmode : mode.IsSound) {s t : List Char}
    (h : ∀ lexeme ∈ lexFrom true mode s, lexeme.isClosed = true) (ht : t.head? ≠ some '*') :
    marksFrom mode (s ++ t) = (lexFrom true mode s).flatMap marks ++ commentMarks t ↔
      Legible (lexFrom true mode s) := by
  fun_induction lexFrom true mode s with
  | case1 => exact iff_of_true rfl legible_nil
  | case2 => exact absurd (h _ List.mem_cons_self) (by decide)
  | case3 c rest ih =>
    have hrest := ih trivial fun lexeme hmem => h lexeme (List.mem_cons_of_mem _ hmem)
    have hstar : (c = '/' → (rest ++ t).head? ≠ some '*') ↔
        (Lexeme.escape c = .escape '/' → (lex true rest).head? ≠ some (.plain '*')) := by
      rw [Lexeme.escape.injEq, ne_eq, ne_eq, head?_lex_star]
      refine imp_congr_right fun _ => not_congr ⟨fun hstar => ?_, fun hstar => ?_⟩
      · by_contra hne
        exact head?_append_ne hne ht hstar
      · obtain ⟨rest, rfl⟩ := List.head?_eq_some_iff.mp hstar
        rfl
    rw [List.flatMap_cons, List.append_assoc, legible_cons, ← hrest, ← lex, ← hstar]
    exact commentMarks_escape_iff.trans (and_iff_right rfl).symm
  | case4 rest ih => exact ih trivial h
  | case5 c rest _ _ _ hquote ih => exact ih hquote h
  | case6 c rest hlone hescape hcomment hquote ih =>
    have hrest := ih trivial fun lexeme hmem => h lexeme (List.mem_cons_of_mem _ hmem)
    have hslash : c = '/' → (rest ++ t).head? ≠ some '*' := by
      rintro rfl
      refine head?_append_ne (fun hstar => ?_) ht
      obtain ⟨rest, rfl⟩ := List.head?_eq_some_iff.mp hstar
      exact hcomment rest rfl rfl
    show commentMarks (c :: (rest ++ t)) = (c, false) :: _ ↔ _
    rw [commentMarks_cons hslash, List.cons_inj_right, legible_cons_of_ne rfl (by simp)]
    exact hrest
  | case7 => exact absurd (h _ List.mem_cons_self) (by simp [Lexeme.isClosed])
  | case8 soFar rest ih =>
    have hrest := ih trivial fun lexeme hmem => h lexeme (List.mem_cons_of_mem _ hmem)
    have hmarks : marksFrom (.inComment soFar) ('*' :: '/' :: rest ++ t) =
        marks (.comment soFar.reverse) ++ marksFrom .between (rest ++ t) := by
      simp [marksFrom, commentMarks, commentMarksFrom, marks, Lexeme.text, isComment]
    rw [hmarks, List.flatMap_cons, List.append_assoc, List.append_right_inj,
      legible_cons_of_ne rfl (by simp)]
    exact hrest
  | case9 soFar c rest hend ih =>
    have hmarks : marksFrom (.inComment soFar) (c :: rest ++ t) =
        marksFrom (.inComment (c :: soFar)) (rest ++ t) := by
      have hstar : ∀ rest', c = '*' → rest ++ t = '/' :: rest' → False := by
        intro rest' hc heq
        cases rest with
        | nil => exact absurd (h _ List.mem_cons_self) (by simp [Lexeme.isClosed])
        | cons d rest =>
          cases heq
          exact hend rest hc rfl
      rw [marksFrom, marksFrom, List.cons_append, commentMarksFrom.eq_5 _ _ hstar]
      simp
    rw [hmarks]
    exact ih trivial h
  | case10 => exact absurd (h _ List.mem_cons_self) (by simp [Lexeme.isClosed])
  | case11 q soFar c rest ih =>
    have hmarks : marksFrom (.inQuote q soFar) ('\\' :: c :: rest ++ t) =
        marksFrom (.inQuote q (c :: '\\' :: soFar)) (rest ++ t) := by
      simp [marksFrom]
    rw [hmarks]
    exact ih hmode h
  | case12 q soFar c rest hescape hc ih =>
    have hrest := ih trivial fun lexeme hmem => h lexeme (List.mem_cons_of_mem _ hmem)
    obtain rfl : c = q := beq_iff_eq.mp hc
    have hmarks : marksFrom (.inQuote c soFar) (c :: rest ++ t) =
        commentMarks ((Lexeme.quoted c soFar.reverse).text ++ (rest ++ t)) := by
      simp [marksFrom, Lexeme.text]
    rw [hmarks, List.flatMap_cons, List.append_assoc, legible_quoted_cons, ← hrest]
    exact commentMarks_quoted_iff hmode
  | case13 => exact absurd (h _ List.mem_cons_self) (by simp [Lexeme.isClosed])
  | case14 q soFar c rest hescape hc hline ih =>
    have hmarks : marksFrom (.inQuote q soFar) (c :: rest ++ t) =
        marksFrom (.inQuote q (c :: soFar)) (rest ++ t) := by
      simp [marksFrom]
    rw [hmarks]
    exact ih hmode h

/-- **Agreement.**  The characters that are removed from a closed text are those of its comments just if
the text is legible. -/
theorem commentMarks_eq_iff {s : List Char} (h : Closed true s) :
    commentMarks s = (lex true s).flatMap marks ↔ Legible (lex true s) := by
  have hmode : LexMode.between.IsSound := trivial
  have hiff := @marksFrom_append_iff .between hmode s [] h (by simp)
  rwa [List.append_nil, show commentMarks [] = [] from rfl, List.append_nil] at hiff

theorem unmark_filter_marks (lexemes : List Lexeme) :
    unmark ((lexemes.flatMap marks).filter (!·.2)) = uncommented lexemes := by
  induction lexemes with
  | nil => rfl
  | cons lexeme lexemes ih =>
    have hmarks : unmark ((marks lexeme).filter (!·.2)) =
        if isComment lexeme then [] else lexeme.text := by
      unfold marks unmark
      cases isComment lexeme <;> simp [List.filter_map, Function.comp_def]
    unfold unmark uncommented at *
    rw [List.flatMap_cons, List.filter_append, List.map_append, ih, hmarks, List.filter_cons]
    cases isComment lexeme <;> rfl

/-- What is left of a closed and legible text is the text without its comments, whatever follows. -/
theorem stripComments_append_of_legible {s t : List Char} (h : Closed true s)
    (hlegible : Legible (lex true s)) (ht : t.head? ≠ some '*') :
    stripComments (s ++ t) = uncommented (lex true s) ++ stripComments t := by
  have hmode : LexMode.between.IsSound := trivial
  have hmarks : commentMarks (s ++ t) = (lex true s).flatMap marks ++ commentMarks t :=
    (marksFrom_append_iff hmode h ht).mpr hlegible
  rw [stripComments_eq, hmarks, List.filter_append, stripComments_eq, ← unmark_filter_marks]
  exact List.map_append

theorem stripComments_of_legible {s : List Char} (h : Closed true s)
    (hlegible : Legible (lex true s)) : stripComments s = uncommented (lex true s) := by
  have happend := stripComments_append_of_legible h hlegible (t := []) (by simp)
  rw [List.append_nil] at happend
  exact happend.trans (List.append_nil _)

/-! ## Texts without comments -/

/-- A text without comments is legible just if no comment seems to open in it. -/
theorem legible_iff_noComment {s : List Char} (h : Closed true s)
    (hcomment : ∀ lexeme ∈ lex true s, isComment lexeme = false) :
    Legible (lex true s) ↔ NoComment s := by
  have hmarks : (lex true s).flatMap marks = s.map (·, false) := by
    conv => rhs; rw [← flatMap_text_lex true s]
    rw [List.map_flatMap]
    refine List.flatMap_congr fun lexeme hmem => ?_
    rw [marks, hcomment lexeme hmem]
  rw [← commentMarks_eq_iff h, hmarks, commentMarks_eq_self_iff]

end AtomicStyle.CssText
