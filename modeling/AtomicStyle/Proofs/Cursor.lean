import AtomicStyle.Proofs.RuleKeys
import AtomicStyle.Proofs.Slicing

/-!
# A cursor in CSS text

The reader of `CssText.parse` goes from lexeme to lexeme and has the characters in its hands.  A cursor
is an offset into the bytes of the text: it is moved forward byte by byte, and the text is cut where it
stands.  After a backslash it moves on by two bytes, which may lead into the middle of a character or
beyond the end.  Where a cut fails, or a loop does not end, there is no result.

The cursor is compared with reading from the same place on (`Matches`).  It always comes to the end of
a prelude, because each lexeme moves it forward, and there it stands between characters.

Results:
1. `skipComment_of_cut`, `skipString_cases`: the cursor passes over comments and quoted texts.
2. `skipTrivia_step`, `skipTrivia_matches`: blanks and comments before an item.
3. `scanPrelude_step`, `scanPrelude_matches`: one lexeme of a prelude, and all of them.
4. `preludeAt_matches`: the text of a prelude.
-/

namespace AtomicStyle.CssText

open AtomicStyle.Css AtomicStyle.Text
open AtomicStyle.RuleText (text_ne_nil)

/-! ## The cursor -/

/-- A run of the cursor, with faults at offsets. -/
abbrev Scan (α : Type) := Checked (CssFault × Nat) α

/-- Passes over the comment that begins at the cursor. -/
def skipComment (text : List Char) (pos : Nat) : Scan Nat := do
  let inside ← back? text (pos + 2)
  match offsetOf? ['*', '/'] inside with
  | none => throw (.unterminatedComment, pos)
  | some length => return pos + (length + 4)

/-- Whether a comment begins at the cursor. -/
def commentAt (text : List Char) (pos : Nat) : Bool :=
  byteAt? text pos == some '/' && byteAt? text (pos + 1) == some '*'

/-- Passes over blanks and comments. -/
def skipTrivia (css : CssText) (pos : Nat) : Scan Nat := do
  if (byteAt? css.chars pos).any isCssBlank then css |>.skipTrivia (pos + 1)
  else if commentAt css.chars pos then
    let next ← skipComment css.chars pos
    css |>.skipTrivia next
  else return pos
partial_fixpoint

/-- Passes over the rest of a quoted text that began at `start`. -/
def skipString (css : CssText) (quote : Char) (start pos : Nat) : Scan Nat := do
  match byteAt? css.chars pos with
  | none => throw (.unterminatedString, start)
  | some byte =>
    if byte == '\\' then css |>.skipString quote start (pos + 2)
    else if byte == '\n' then throw (.unterminatedString, start)
    else if byte == quote then return pos + 1
    else css |>.skipString quote start (pos + 1)
partial_fixpoint

/-- What ends a prelude. -/
inductive Terminator where
  | semicolon
  | opening
  | closing
  | textEnd
deriving DecidableEq

/-- Moves to the end of a prelude in which `brackets` are open. -/
def scanPrelude (css : CssText) (brackets pos : Nat) : Scan (Terminator × Nat) := do
  match byteAt? css.chars pos with
  | none =>
    if brackets == 0 then return (.textEnd, pos)
    else throw (.unclosedParenthesis, pos)
  | some byte =>
    if isQuote byte then
      let next ← css.skipString byte pos (pos + 1)
      css |>.scanPrelude brackets next
    else if byte == '\\' then css |>.scanPrelude brackets (pos + 2)
    else if commentAt css.chars pos then
      let next ← skipComment css.chars pos
      css |>.scanPrelude brackets next
    else if isOpening byte then css |>.scanPrelude (brackets + 1) (pos + 1)
    else if isClosing byte then
      if brackets == 0 then throw (.unexpected byte, pos)
      else css |>.scanPrelude (brackets - 1) (pos + 1)
    else if brackets == 0 && byte == ';' then return (.semicolon, pos)
    else if brackets == 0 && byte == '\x7b' then return (.opening, pos)
    else if brackets == 0 && byte == '\x7d' then return (.closing, pos)
    else css |>.scanPrelude brackets (pos + 1)
partial_fixpoint

/-- The end of the prelude that begins at `start`, and its text without comments and outer blanks. -/
def preludeAt (css : CssText) (start : Nat) : Scan (Terminator × Nat × List Char) := do
  let (terminator, pos) ← css.scanPrelude 0 start
  let stop := min pos (byteLength css.chars)
  let raw ← between? css.chars start stop
  let uncommented ← removeComments [] raw
  return (terminator, stop, trim uncommented)

/-! ## Places -/

/-- An offset, which may lie beyond the end, is the place after so many characters. -/
def Locates (text : List Char) (offset place : Nat) : Prop :=
  min offset (byteLength text) = byteLength (text.take place)

theorem locates_append (before rest : List Char) :
    Locates (before ++ rest) (byteLength before) before.length := by
  rw [Locates, List.take_left, byteLength_append]
  omega

theorem locates_of_le {text : List Char} {offset : Nat} (h : byteLength text ≤ offset) :
    Locates text offset text.length := by
  rw [Locates, List.take_length]
  omega

/-- The run of the cursor ends: with the fault that reading comes to, at its place, or with a result
of which `good` holds. -/
inductive Matches (text : List Char) (read : Except Fault Block) {α : Type} (good : α → Prop) :
    Scan α → Prop where
  | fault {fault : CssFault} {offset place : Nat} (hplace : Locates text offset place)
      (hread : read = .error (fault, place)) : Matches text read good (throw (fault, offset))
  | result {a : α} (h : good a) : Matches text read good (pure a)

namespace Matches

variable {text : List Char} {read : Except Fault Block} {α β : Type} {good : α → Prop}

theorem bind {scan : Scan α} (h : Matches text read good scan) {next : α → Scan β}
    {fine : β → Prop} (hnext : ∀ a, good a → Matches text read fine (next a)) :
    Matches text read fine (scan >>= next) := by
  cases h with
  | fault hplace hread => exact .fault hplace hread
  | result ha => exact hnext _ ha

theorem mono {scan : Scan α} (h : Matches text read good scan) {fine : α → Prop}
    (himp : ∀ a, good a → fine a) : Matches text read fine scan := by
  cases h with
  | fault hplace hread => exact .fault hplace hread
  | result ha => exact .result (himp _ ha)

end Matches

/-! ## Reading on -/

namespace Reading

/-- The block that is read from a reading on, or the first fault. -/
def run (refs : List DynamicRef) (reading : Reading) (s : List Char) : Except Fault Block := do
  let last ← (lex true s).foldlM (step refs) reading
  last.finish refs

variable {refs : List DynamicRef} {place : Nat} {items : Block} {around : List OpenBlock}
  {prelude : Option Prelude} {s rest : List Char} {lexeme : Lexeme}

theorem run_nil (reading : Reading) : run refs reading [] = reading.finish refs := rfl

theorem run_eq_take_bind (reading : Reading) (hlex : lex true s = lexeme :: lex true rest) :
    run refs reading s = reading.take refs lexeme >>= fun next =>
      run refs { next with place := next.place + lexeme.text.length } rest := by
  rw [run, hlex, List.foldlM_cons, step]
  cases reading.take refs lexeme <;> rfl

theorem run_of_error {reading : Reading} {later : List Lexeme} (hlex : lex true s = lexeme :: later)
    {fault : Fault} (h : reading.take refs lexeme = .error fault) :
    run refs reading s = .error fault := by
  rw [run, hlex, List.foldlM_cons, step, h]
  rfl

theorem run_of_ok {before : List Char} (hlex : lex true s = lexeme :: lex true rest)
    {items' : Block} {around' : List OpenBlock} {prelude' : Option Prelude}
    (h : take refs ⟨before.length, items, around, prelude⟩ lexeme =
      .ok ⟨before.length, items', around', prelude'⟩) :
    run refs ⟨before.length, items, around, prelude⟩ s =
      run refs ⟨(before ++ lexeme.text).length, items', around', prelude'⟩ rest := by
  rw [run_eq_take_bind _ hlex, h, List.length_append]
  rfl

end Reading

/-! ## Comments and quoted texts -/

section

variable {text before rest : List Char}

theorem back?_comment (htext : text = before ++ '/' :: '*' :: rest) :
    back? text (byteLength before + 2) = some rest := by
  have hback := back?_append (before ++ ['/', '*']) rest
  rw [byteLength_append] at hback
  rw [htext, List.append_cons, List.append_cons, List.append_assoc before]
  exact hback

theorem skipComment_of_none (htext : text = before ++ '/' :: '*' :: rest)
    (h : cut? ['*', '/'] rest = none) :
    skipComment text (byteLength before) = throw (.unterminatedComment, byteLength before) := by
  rw [skipComment, back?_comment htext, Checked.lift_some, pure_bind, offsetOf?_of_none h]

theorem skipComment_of_cut {body after : List Char} (htext : text = before ++ '/' :: '*' :: rest)
    (h : cut? ['*', '/'] rest = some (body, after)) :
    skipComment text (byteLength before) =
      pure (byteLength (before ++ (Lexeme.comment body).text)) := by
  have hlength : byteLength (before ++ (Lexeme.comment body).text) =
      byteLength before + (byteLength body + 4) := by
    have hslash : '/'.utf8Size = 1 := by decide
    have hstar : '*'.utf8Size = 1 := by decide
    simp only [Lexeme.text, byteLength_append, byteLength_cons, byteLength_nil, hslash, hstar]
    omega
  rw [skipComment, back?_comment htext, Checked.lift_some, pure_bind, offsetOf?_of_some h, hlength]

theorem lexFrom_inComment_of_none {s soFar : List Char} (h : cut? ['*', '/'] s = none) :
    lexFrom true (.inComment soFar) s = [.openComment (soFar.reverse ++ s)] := by
  induction s generalizing soFar with
  | nil => rw [lexFrom, List.append_nil]
  | cons c s ih =>
    obtain ⟨hclose, hrest⟩ := cut?_cons_eq_none.mp h
    rw [lexFrom_inComment true soFar, ih hrest, List.reverse_cons, List.append_assoc]
    · rfl
    · rintro rfl hslash
      obtain ⟨after, rfl⟩ := List.head?_eq_some_iff.mp hslash
      exact hclose ⟨after, rfl⟩

theorem lexFrom_inComment_of_cut {s soFar body after : List Char}
    (h : cut? ['*', '/'] s = some (body, after)) :
    lexFrom true (.inComment soFar) s = .comment (soFar.reverse ++ body) :: lex true after := by
  induction s generalizing soFar body with
  | nil => cases h
  | cons c s ih =>
    rcases cut?_pair_cons h with ⟨rfl, rfl, rfl⟩ | ⟨front, rfl, hclose, hcut⟩
    · rw [lexFrom, List.append_nil]
      rfl
    · rw [lexFrom_inComment true soFar hclose, ih hcut, List.reverse_cons, List.append_assoc]
      rfl

theorem not_isWide_of_isQuote {quote : Char} (h : isQuote quote = true) : ¬ IsWide quote := by
  simp only [isQuote, Bool.or_eq_true, beq_iff_eq] at h
  rcases h with rfl | rfl <;> decide

variable {css : CssText} {quote c : Char} {start : Nat}

theorem skipString_wide (hquote : isQuote quote = true) (pos : Nat) (byte : Char)
    (hbyte : byteAt? css.chars pos = some byte) (hwide : IsWide byte) :
    css.skipString quote start pos = css.skipString quote start (pos + 1) := by
  rw [skipString, hbyte]
  simp [hwide.ne (d := '\\') (by decide), hwide.ne (d := '\n') (by decide),
    hwide.ne (not_isWide_of_isQuote hquote)]

theorem skipString_end {pos : Nat} (hpos : byteLength css.chars ≤ pos) :
    css.skipString quote start pos = throw (.unterminatedString, start) := by
  rw [skipString, byteAt?_of_le hpos]

theorem skipString_backslash (htext : css.chars = before ++ '\\' :: rest) :
    css.skipString quote start (byteLength before) =
      css.skipString quote start (byteLength (before ++ ['\\']) + 1) := by
  rw [skipString, byteAt?_of_ascii htext (by decide), byteLength_append]
  rfl

theorem skipString_escape (hquote : isQuote quote = true)
    (htext : css.chars = before ++ '\\' :: c :: rest) :
    css.skipString quote start (byteLength before) =
      css.skipString quote start (byteLength (before ++ ['\\', c])) := by
  have hafter : css.chars = before ++ ['\\'] ++ c :: rest := by rw [htext, List.append_cons]
  rw [skipString_backslash htext, eq_after_char hafter (skipString_wide hquote), List.append_assoc]
  rfl

theorem skipString_quote (hquote : isQuote quote = true)
    (htext : css.chars = before ++ quote :: rest) :
    css.skipString quote start (byteLength before) = pure (byteLength (before ++ [quote])) := by
  have hwide := not_isWide_of_isQuote hquote
  have hescape : quote ≠ '\\' := ne_of_isQuote hquote (by decide)
  have hline : quote ≠ '\n' := ne_of_isQuote hquote (by decide)
  rw [skipString, byteAt?_of_ascii htext hwide, byteLength_append, byteLength_cons,
    utf8Size_of_not_isWide hwide]
  simp [hescape, hline]

theorem skipString_newline (htext : css.chars = before ++ '\n' :: rest) :
    css.skipString quote start (byteLength before) = throw (.unterminatedString, start) := by
  rw [skipString, byteAt?_of_ascii htext (by decide)]
  rfl

theorem skipString_plain (hquote : isQuote quote = true) (htext : css.chars = before ++ c :: rest)
    (hescape : c ≠ '\\') (hline : c ≠ '\n') (hc : c ≠ quote) :
    css.skipString quote start (byteLength before) =
      css.skipString quote start (byteLength (before ++ [c])) := by
  refine eq_of_passes htext (skipString_wide hquote) fun hbyte => ?_
  rw [skipString, hbyte]
  simp [hescape, hline, hc]

theorem lexFrom_inQuote {soFar : List Char} (hc : c ≠ '\\') :
    lexFrom true (.inQuote quote soFar) (c :: rest) =
      if c == quote then .quoted quote soFar.reverse :: lex true rest
      else if c == '\n' then [.openQuote quote (soFar.reverse ++ c :: rest)]
      else lexFrom true (.inQuote quote (c :: soFar)) rest :=
  lexFrom.eq_11 _ _ _ _ _ fun _ _ h => absurd h hc

theorem lexFrom_inQuote_loneEscape {soFar : List Char} (hquote : isQuote quote = true) :
    lexFrom true (.inQuote quote soFar) ['\\'] = [.openQuote quote (soFar.reverse ++ ['\\'])] := by
  have hescape : '\\' ≠ quote := (ne_of_isQuote hquote (by decide)).symm
  rw [lexFrom.eq_11 _ _ _ _ _ (by simp), if_neg (by simpa using hescape), if_neg (by decide),
    lexFrom, List.reverse_cons]

/-- A quoted text ends where the cursor says, or both find no end. -/
theorem skipString_cases (hquote : isQuote quote = true) (htext : css.chars = before ++ rest)
    (soFar : List Char) :
    (∃ body after, rest = body ++ quote :: after ∧
      lexFrom true (.inQuote quote soFar) rest =
        .quoted quote (soFar.reverse ++ body) :: lex true after ∧
      css.skipString quote start (byteLength before) =
        pure (byteLength (before ++ (body ++ [quote])))) ∨
    (lexFrom true (.inQuote quote soFar) rest = [.openQuote quote (soFar.reverse ++ rest)] ∧
      css.skipString quote start (byteLength before) = throw (.unterminatedString, start)) := by
  -- on the text that is left, since an escape takes two characters
  induction hn : rest.length using Nat.strong_induction_on generalizing before rest soFar with
  | _ n ih =>
    subst hn
    cases rest with
    | nil =>
      rw [skipString_end (by rw [htext, List.append_nil]), lexFrom, List.append_nil]
      exact Or.inr ⟨rfl, rfl⟩
    | cons c rest =>
      by_cases hescape : c = '\\'
      · subst hescape
        cases rest with
        | nil =>
          rw [skipString_backslash htext, skipString_end (by rw [htext]; omega)]
          exact Or.inr ⟨lexFrom_inQuote_loneEscape hquote, rfl⟩
        | cons d rest =>
          have hafter : css.chars = before ++ ['\\', d] ++ rest := by
            rw [htext, List.append_assoc]
            rfl
          rw [skipString_escape hquote htext, lexFrom]
          rcases ih rest.length (by simp only [List.length_cons]; omega) hafter (d :: '\\' :: soFar)
              rfl with
            ⟨body, after, rfl, hlex, hskip⟩ | ⟨hlex, hskip⟩
          · exact Or.inl ⟨'\\' :: d :: body, after, rfl, by simpa using hlex, by simpa using hskip⟩
          · exact Or.inr ⟨by simpa using hlex, hskip⟩
      · rw [lexFrom_inQuote hescape]
        by_cases hc : c = quote
        · subst hc
          rw [if_pos (beq_self_eq_true c), skipString_quote hquote htext]
          exact Or.inl ⟨[], rest, rfl, by rw [List.append_nil], rfl⟩
        · rw [if_neg (by simpa using hc)]
          by_cases hline : c = '\n'
          · subst hline
            rw [skipString_newline htext]
            exact Or.inr ⟨if_pos rfl, rfl⟩
          · have hafter : css.chars = before ++ [c] ++ rest := by rw [htext, List.append_cons]
            rw [if_neg (by simpa using hline), skipString_plain hquote htext hescape hline hc]
            rcases ih rest.length (by simp) hafter (c :: soFar) rfl with
              ⟨body, after, rfl, hlex, hskip⟩ | ⟨hlex, hskip⟩
            · exact Or.inl ⟨c :: body, after, rfl, by simpa using hlex, by simpa using hskip⟩
            · exact Or.inr ⟨by simpa using hlex, hskip⟩

theorem lex_comment {body after : List Char} (h : cut? ['*', '/'] rest = some (body, after)) :
    lex true ('/' :: '*' :: rest) = .comment body :: lex true after := by
  rw [lex, lexFrom]
  exact lexFrom_inComment_of_cut h

theorem lex_openComment (h : cut? ['*', '/'] rest = none) :
    lex true ('/' :: '*' :: rest) = [.openComment rest] := by
  rw [lex, lexFrom]
  exact lexFrom_inComment_of_none h

end

theorem length_lt_of_lexeme {s after : List Char} {lexeme : Lexeme} (h : s = lexeme.text ++ after) :
    after.length < s.length := by
  have := List.length_pos_iff.mpr (text_ne_nil lexeme)
  rw [h, List.length_append]
  omega

/-! ## Blanks and comments -/

/-- Neither a blank nor a comment comes first. -/
structure NoTrivia (s : List Char) : Prop where
  blank : ∀ c, s.head? = some c → isCssBlank c = false
  comment : ¬ ['/', '*'] <+: s

section

variable {refs : List DynamicRef} {text before rest : List Char} {read : Except Fault Block}
  {css : CssText} {items : Block} {around : List OpenBlock}

theorem commentAt_eq_true_iff (htext : text = before ++ rest) :
    commentAt text (byteLength before) = true ↔ ['/', '*'] <+: rest := by
  rw [commentAt, Bool.and_eq_true, beq_iff_eq, beq_iff_eq,
    byteAt?_eq_some_iff htext (by decide : ¬ IsWide '/')]
  cases rest with
  | nil => simp
  | cons c rest =>
    rw [List.cons_prefix_cons, List.head?_cons, Option.some.injEq, eq_comm]
    refine and_congr_right fun hc => ?_
    subst hc
    have hafter : text = before ++ ['/'] ++ rest := by rw [htext, List.append_cons]
    have hbyte := byteAt?_eq_some_iff hafter (by decide : ¬ IsWide '*')
    rw [byteLength_concat (by decide)] at hbyte
    rw [hbyte]
    cases rest with
    | nil => simp
    | cons d rest => simp [eq_comm]

theorem isCssBlank_of_isWide (c : Char) (h : IsWide c) : isCssBlank c = false := by
  simp [isCssBlank, h.ne (d := ' ') (by decide), h.ne (d := '\t') (by decide),
    h.ne (d := '\n') (by decide), h.ne (d := '\x0c') (by decide), h.ne (d := '\r') (by decide)]

/-- The cursor has moved over blanks and comments, and reading goes on after them. -/
def Skipped (refs : List DynamicRef) (items : Block) (around : List OpenBlock)
    (read : Except Fault Block) (before rest : List Char) (pos : Nat) : Prop :=
  ∃ gap after, rest = gap ++ after ∧ NoTrivia after ∧ pos = byteLength (before ++ gap) ∧
    read = Reading.run refs ⟨(before ++ gap).length, items, around, none⟩ after

/-- A blank or a comment comes first and is passed over, or neither does, or a comment has no end. -/
theorem skipTrivia_step (htext : css.chars = before ++ rest)
    (hread : read = Reading.run refs ⟨before.length, items, around, none⟩ rest) :
    (∃ lexeme after, rest = lexeme.text ++ after ∧ lex true rest = lexeme :: lex true after ∧
      Reading.take refs ⟨before.length, items, around, none⟩ lexeme =
        .ok ⟨before.length, items, around, none⟩ ∧
      css.skipTrivia (byteLength before) =
        css.skipTrivia (byteLength (before ++ lexeme.text))) ∨
    Matches css.chars read (Skipped refs items around read before rest)
      (css.skipTrivia (byteLength before)) := by
  rw [skipTrivia, any_byteAt? htext isCssBlank_of_isWide]
  cases hblank : rest.head?.any isCssBlank with
  | true =>
    cases rest with
    | nil => cases hblank
    | cons c after =>
      have hc : isCssBlank c = true := hblank
      have hwide : ¬ IsWide c := fun hwide => by simp [isCssBlank_of_isWide c hwide] at hc
      refine Or.inl ⟨.plain c, after, rfl, lexFrom_blank true (isBlank_of_isCssBlank hc) after, ?_, ?_⟩
      · exact if_pos (by rw [hc, Bool.true_or])
      · rw [← byteLength_concat hwide]
        rfl
  | false =>
    cases hcomment : commentAt css.chars (byteLength before) with
    | true =>
      obtain ⟨inside, rfl⟩ := (commentAt_eq_true_iff htext).mp hcomment
      cases hcut : cut? ['*', '/'] inside with
      | none =>
        rw [skipComment_of_none htext hcut]
        refine Or.inr (.fault (htext ▸ locates_append before _) (hread.trans ?_))
        exact Reading.run_of_error (lex_openComment hcut) rfl
      | some parts =>
        obtain ⟨body, after⟩ := parts
        refine Or.inl ⟨.comment body, after, ?_, lex_comment hcut, rfl, ?_⟩
        · rw [eq_of_cut? hcut]
          simp [Lexeme.text]
        · rw [skipComment_of_cut htext hcut]
          rfl
    | false =>
      refine Or.inr (.result ⟨[], rest, rfl, ⟨fun c hc => ?_, ?_⟩, ?_, ?_⟩)
      · rwa [hc] at hblank
      · rw [← commentAt_eq_true_iff htext, hcomment]
        exact Bool.false_ne_true
      · rw [List.append_nil]
      · rw [hread, List.append_nil]

theorem skipTrivia_matches (htext : css.chars = before ++ rest)
    (hread : read = Reading.run refs ⟨before.length, items, around, none⟩ rest) :
    Matches css.chars read (Skipped refs items around read before rest)
      (css.skipTrivia (byteLength before)) := by
  -- on the text that is left
  induction hn : rest.length using Nat.strong_induction_on generalizing before rest with
  | _ n ih =>
    subst hn
    rcases skipTrivia_step htext hread with ⟨lexeme, after, hrest, hlex, htake, hskip⟩ | hmatches
    · have hafter : css.chars = before ++ lexeme.text ++ after := by
        rw [htext, hrest, List.append_assoc]
      rw [hskip]
      refine (ih _ (length_lt_of_lexeme hrest) hafter (hread.trans (Reading.run_of_ok hlex htake))
        rfl).mono ?_
      rintro pos ⟨gap, last, rfl, hlast, rfl, hrun⟩
      refine ⟨lexeme.text ++ gap, last, ?_, hlast, ?_, ?_⟩
      · rw [hrest, List.append_assoc]
      · rw [List.append_assoc]
      · rw [hrun, List.append_assoc]
    · exact hmatches

/-! ## Preludes -/

/-- What stands after a prelude that ends so. -/
def Terminator.Ends : Terminator → List Char → Prop
  | semicolon, after => after.head? = some ';'
  | opening, after => after.head? = some '\x7b'
  | closing, after => after.head? = some '\x7d'
  | textEnd, after => after = []

/-- The cursor has moved to the end of a prelude, or beyond the end of the text, and reading goes on
with all of the prelude read and no bracket open. -/
def Ended (refs : List DynamicRef) (items : Block) (around : List OpenBlock)
    (read : Except Fault Block) (text before rest : List Char) (p : Prelude)
    (last : Terminator × Nat) : Prop :=
  ∃ inside after, rest = inside ++ after ∧ last.1.Ends after ∧
    min last.2 (byteLength text) = byteLength (before ++ inside) ∧
    read = Reading.run refs
      ⟨(before ++ inside).length, items, around, some ⟨p.start, p.text ++ inside, 0⟩⟩ after

variable {p : Prelude} {brackets pos : Nat} {last : Terminator × Nat} {c : Char}

theorem Ended.here {terminator : Terminator} (hends : terminator.Ends rest)
    (hpos : min pos (byteLength text) = byteLength before) (hp : p.brackets = 0)
    (hread : read = Reading.run refs ⟨before.length, items, around, some p⟩ rest) :
    Ended refs items around read text before rest p (terminator, pos) := by
  refine ⟨[], rest, rfl, hends, ?_, ?_⟩
  · rw [List.append_nil, hpos]
  · rw [hread, List.append_nil, List.append_nil, ← hp]

theorem Ended.append {piece after : List Char}
    (h : Ended refs items around read text (before ++ piece) after
      ⟨p.start, p.text ++ piece, brackets⟩ last) :
    Ended refs items around read text before (piece ++ after) p last := by
  obtain ⟨inside, after, rfl, hends, hpos, hrun⟩ := h
  refine ⟨piece ++ inside, after, ?_, hends, ?_, ?_⟩
  · rw [List.append_assoc]
  · rw [hpos, List.append_assoc]
  · rw [hrun, List.append_assoc, List.append_assoc]

theorem notSpecial_of_isWide (h : IsWide c) :
    isQuote c = false ∧ isOpening c = false ∧ isClosing c = false := by
  simp [isQuote, isOpening, isClosing, h.ne (d := '"') (by decide), h.ne (d := '\'') (by decide),
    h.ne (d := '(') (by decide), h.ne (d := '[') (by decide), h.ne (d := ')') (by decide),
    h.ne (d := ']') (by decide)]

theorem scanPrelude_wide (pos : Nat) (byte : Char) (hbyte : byteAt? css.chars pos = some byte)
    (hwide : IsWide byte) : css.scanPrelude brackets pos = css.scanPrelude brackets (pos + 1) := by
  obtain ⟨hquote, hopening, hclosing⟩ := notSpecial_of_isWide hwide
  rw [scanPrelude, hbyte]
  simp [commentAt, hbyte, hquote, hopening, hclosing, hwide.ne (d := '\\') (by decide),
    hwide.ne (d := '/') (by decide), hwide.ne (d := ';') (by decide),
    hwide.ne (d := '\x7b') (by decide), hwide.ne (d := '\x7d') (by decide)]

theorem scanPrelude_backslash (htext : css.chars = before ++ '\\' :: rest) :
    css.scanPrelude brackets (byteLength before) =
      css.scanPrelude brackets (byteLength (before ++ ['\\']) + 1) := by
  rw [scanPrelude, byteAt?_of_ascii htext (by decide), byteLength_append]
  rfl

theorem scanPrelude_escape (htext : css.chars = before ++ '\\' :: c :: rest) :
    css.scanPrelude brackets (byteLength before) =
      css.scanPrelude brackets (byteLength (before ++ ['\\', c])) := by
  have hafter : css.chars = before ++ ['\\'] ++ c :: rest := by rw [htext, List.append_cons]
  rw [scanPrelude_backslash htext, eq_after_char hafter scanPrelude_wide, List.append_assoc]
  rfl

/-- The end of the text ends a prelude, if no bracket is open. -/
theorem scanPrelude_textEnd (htext : css.chars = before) (hpos : byteLength css.chars ≤ pos)
    (hread : read = Reading.run refs ⟨before.length, items, around, some p⟩ []) :
    Matches css.chars read (Ended refs items around read css.chars before [] p)
      (css.scanPrelude p.brackets pos) := by
  rw [scanPrelude, byteAt?_of_le hpos]
  cases hbrackets : p.brackets == 0 with
  | true =>
    have hend : min pos (byteLength css.chars) = byteLength before := by rw [← htext]; omega
    exact .result (.here rfl hend (by simpa using hbrackets) hread)
  | false =>
    refine .fault (locates_of_le hpos) ?_
    rw [hread, Reading.run_nil, Reading.finish, htext]
    simp only [hbrackets]
    rfl

/-- One lexeme goes on with the prelude, and the cursor passes over it. -/
def GoesOn (refs : List DynamicRef) (items : Block) (around : List OpenBlock)
    (css : CssText) (before rest : List Char) (p : Prelude) : Prop :=
  ∃ lexeme after brackets, rest = lexeme.text ++ after ∧ lex true rest = lexeme :: lex true after ∧
    Reading.take refs ⟨before.length, items, around, some p⟩ lexeme =
      .ok ⟨before.length, items, around, some ⟨p.start, p.text ++ lexeme.text, brackets⟩⟩ ∧
    css.scanPrelude p.brackets (byteLength before) =
      css.scanPrelude brackets (byteLength (before ++ lexeme.text))

theorem scanPrelude_quote (hquote : isQuote c = true) (htext : css.chars = before ++ c :: rest)
    (hread : read = Reading.run refs ⟨before.length, items, around, some p⟩ (c :: rest)) :
    GoesOn refs items around css before (c :: rest) p ∨
      Matches css.chars read (Ended refs items around read css.chars before (c :: rest) p)
        (css.scanPrelude p.brackets (byteLength before)) := by
  have hwide := not_isWide_of_isQuote hquote
  have hafter : css.chars = before ++ [c] ++ rest := by rw [htext, List.append_cons]
  have hscan : css.scanPrelude p.brackets (byteLength before) =
      css.skipString c (byteLength before) (byteLength (before ++ [c])) >>=
        css.scanPrelude p.brackets := by
    rw [scanPrelude, byteAt?_of_ascii htext hwide, byteLength_concat hwide]
    simp only [hquote, if_true]
  rcases @skipString_cases _ _ _ _ (byteLength before) hquote hafter [] with
    ⟨body, after, hrest, hlex, hskip⟩ | ⟨hlex, hskip⟩
  · refine Or.inl ⟨.quoted c body, after, p.brackets, ?_, ?_, rfl, ?_⟩
    · rw [hrest]
      simp [Lexeme.text]
    · exact (lexFrom_quote true hquote rest).trans hlex
    · rw [hscan, hskip, pure_bind, List.append_assoc]
      rfl
  · rw [hscan, hskip, Checked.throw_bind]
    refine Or.inr (.fault (htext ▸ locates_append before _) (hread.trans ?_))
    exact Reading.run_of_error ((lexFrom_quote true hquote rest).trans hlex) rfl

theorem scanPrelude_comment (htext : css.chars = before ++ '/' :: '*' :: rest)
    (hread : read = Reading.run refs ⟨before.length, items, around, some p⟩ ('/' :: '*' :: rest)) :
    GoesOn refs items around css before ('/' :: '*' :: rest) p ∨
      Matches css.chars read (Ended refs items around read css.chars before ('/' :: '*' :: rest) p)
        (css.scanPrelude p.brackets (byteLength before)) := by
  have hscan : css.scanPrelude p.brackets (byteLength before) =
      skipComment css.chars (byteLength before) >>= css.scanPrelude p.brackets := by
    have hat := (commentAt_eq_true_iff htext).mpr ⟨rest, rfl⟩
    rw [scanPrelude, byteAt?_of_ascii htext (by decide)]
    simp only [hat]
    rfl
  cases hcut : cut? ['*', '/'] rest with
  | none =>
    rw [hscan, skipComment_of_none htext hcut, Checked.throw_bind]
    refine Or.inr (.fault (htext ▸ locates_append before _) (hread.trans ?_))
    exact Reading.run_of_error (lex_openComment hcut) rfl
  | some parts =>
    obtain ⟨body, after⟩ := parts
    refine Or.inl ⟨.comment body, after, p.brackets, ?_, lex_comment hcut, rfl, ?_⟩
    · rw [eq_of_cut? hcut]
      simp [Lexeme.text]
    · rw [hscan, skipComment_of_cut htext hcut, pure_bind]

/-- After a backslash at the end of the text the cursor stands beyond the end. -/
theorem scanPrelude_loneEscape (htext : css.chars = before ++ ['\\'])
    (hread : read = Reading.run refs ⟨before.length, items, around, some p⟩ ['\\']) :
    Matches css.chars read (Ended refs items around read css.chars before ['\\'] p)
      (css.scanPrelude p.brackets (byteLength before)) := by
  have hrun := @Reading.run_of_ok refs items around (some p) ['\\'] [] .loneEscape before rfl _ _ _ rfl
  have hend := scanPrelude_textEnd htext
    (by rw [htext]; omega : byteLength css.chars ≤ byteLength (before ++ ['\\']) + 1)
    (hread.trans hrun)
  rw [scanPrelude_backslash htext]
  exact hend.mono fun last hlast => hlast.append

/-- A plain character goes on with a prelude, is a fault in it, or ends it. -/
theorem scanPrelude_plain_cases (htext : css.chars = before ++ c :: rest)
    (hquote : isQuote c = false) (hescape : c ≠ '\\')
    (hcomment : commentAt css.chars (byteLength before) = false) :
    (∃ brackets, Reading.take refs ⟨before.length, items, around, some p⟩ (.plain c) =
        .ok ⟨before.length, items, around, some ⟨p.start, p.text ++ [c], brackets⟩⟩ ∧
      css.scanPrelude p.brackets (byteLength before) =
        css.scanPrelude brackets (byteLength (before ++ [c]))) ∨
    (∃ fault, Reading.take refs ⟨before.length, items, around, some p⟩ (.plain c) =
        .error (fault, before.length) ∧
      css.scanPrelude p.brackets (byteLength before) = throw (fault, byteLength before)) ∨
    (∃ terminator : Terminator, p.brackets = 0 ∧ terminator.Ends (c :: rest) ∧
      css.scanPrelude p.brackets (byteLength before) = pure (terminator, byteLength before)) := by
  by_cases hwide : IsWide c
  · obtain ⟨-, hopening, hclosing⟩ := notSpecial_of_isWide hwide
    refine Or.inl ⟨p.brackets, ?_, ?_⟩
    · simp [Reading.take, Reading.preludeStep, Reading.extend, hopening, hclosing,
        hwide.ne (d := ';') (by decide), hwide.ne (d := '\x7b') (by decide),
        hwide.ne (d := '\x7d') (by decide)]
    · exact eq_of_passes htext scanPrelude_wide fun hbyte => scanPrelude_wide _ c hbyte hwide
  · have hbyte := byteAt?_of_ascii htext hwide
    rw [scanPrelude, hbyte, byteLength_concat hwide]
    simp only [hquote, hcomment, beq_iff_eq, hescape, Bool.false_eq_true, if_false, Reading.take,
      Reading.preludeStep]
    split
    · exact Or.inl ⟨p.brackets + 1, rfl, rfl⟩
    · split
      · split
        · exact Or.inr (Or.inl ⟨.unexpected c, rfl, rfl⟩)
        · exact Or.inl ⟨p.brackets - 1, rfl, rfl⟩
      · split
        · next h =>
          rw [Bool.and_eq_true, beq_iff_eq, beq_iff_eq] at h
          exact Or.inr (Or.inr ⟨.semicolon, h.1, congrArg some h.2, rfl⟩)
        · split
          · next h =>
            rw [Bool.and_eq_true, beq_iff_eq, beq_iff_eq] at h
            exact Or.inr (Or.inr ⟨.opening, h.1, congrArg some h.2, rfl⟩)
          · split
            · next h =>
              rw [Bool.and_eq_true, beq_iff_eq, beq_iff_eq] at h
              exact Or.inr (Or.inr ⟨.closing, h.1, congrArg some h.2, rfl⟩)
            · exact Or.inl ⟨p.brackets, rfl, rfl⟩

theorem scanPrelude_plain (htext : css.chars = before ++ c :: rest) (hquote : isQuote c = false)
    (hescape : c ≠ '\\') (hcomment : ¬ ['/', '*'] <+: c :: rest)
    (hread : read = Reading.run refs ⟨before.length, items, around, some p⟩ (c :: rest)) :
    GoesOn refs items around css before (c :: rest) p ∨
      Matches css.chars read (Ended refs items around read css.chars before (c :: rest) p)
        (css.scanPrelude p.brackets (byteLength before)) := by
  have hlex : lex true (c :: rest) = .plain c :: lex true rest := by
    refine lexFrom_plain true hquote hescape ?_
    rintro rfl hstar
    obtain ⟨inside, rfl⟩ := List.head?_eq_some_iff.mp hstar
    exact hcomment ⟨inside, rfl⟩
  have hat : commentAt css.chars (byteLength before) = false := by
    rwa [Bool.eq_false_iff, ne_eq, commentAt_eq_true_iff htext]
  rcases @scanPrelude_plain_cases refs _ _ _ items around p _ htext hquote hescape hat with
    ⟨brackets, htake, hscan⟩ | ⟨fault, htake, hscan⟩ | ⟨terminator, hp, hends, hscan⟩
  · exact Or.inl ⟨.plain c, rest, brackets, rfl, hlex, htake, hscan⟩
  · rw [hscan]
    refine Or.inr (.fault (htext ▸ locates_append before _) (hread.trans ?_))
    exact Reading.run_of_error hlex htake
  · have hpos : min (byteLength before) (byteLength css.chars) = byteLength before := by
      rw [htext, byteLength_append]
      omega
    rw [hscan]
    exact Or.inr (.result (.here hends hpos hp hread))

/-- Each lexeme goes on with the prelude or ends it. -/
theorem scanPrelude_step (htext : css.chars = before ++ c :: rest)
    (hread : read = Reading.run refs ⟨before.length, items, around, some p⟩ (c :: rest)) :
    GoesOn refs items around css before (c :: rest) p ∨
      Matches css.chars read (Ended refs items around read css.chars before (c :: rest) p)
        (css.scanPrelude p.brackets (byteLength before)) := by
  cases hquote : isQuote c with
  | true => exact scanPrelude_quote hquote htext hread
  | false =>
    by_cases hescape : c = '\\'
    · subst hescape
      cases rest with
      | nil => exact Or.inr (scanPrelude_loneEscape htext hread)
      | cons d rest =>
        exact Or.inl ⟨.escape d, rest, p.brackets, rfl, by rw [lex, lexFrom]; rfl, rfl,
          scanPrelude_escape htext⟩
    · by_cases hcomment : ['/', '*'] <+: c :: rest
      · obtain ⟨inside, hinside⟩ := hcomment
        cases hinside
        exact scanPrelude_comment htext hread
      · exact scanPrelude_plain htext hquote hescape hcomment hread

theorem scanPrelude_matches (htext : css.chars = before ++ rest)
    (hread : read = Reading.run refs ⟨before.length, items, around, some p⟩ rest) :
    Matches css.chars read (Ended refs items around read css.chars before rest p)
      (css.scanPrelude p.brackets (byteLength before)) := by
  -- on the text that is left
  induction hn : rest.length using Nat.strong_induction_on generalizing before rest p with
  | _ n ih =>
    subst hn
    cases rest with
    | nil =>
      rw [List.append_nil] at htext
      exact scanPrelude_textEnd htext (by rw [htext]) hread
    | cons c rest =>
      rcases scanPrelude_step htext hread with
        ⟨lexeme, after, brackets, hrest, hlex, htake, hscan⟩ | hmatches
      · have hafter : css.chars = before ++ lexeme.text ++ after := by
          rw [htext, hrest, List.append_assoc]
        have hnext := ih _ (length_lt_of_lexeme hrest) hafter
          (hread.trans (Reading.run_of_ok hlex htake)) rfl
        rw [hscan, hrest]
        exact hnext.mono fun last hlast => hlast.append
      · exact hmatches

/-- The cursor has passed over a prelude that begins here, and its text is what reading makes of
it. -/
def PreludeRead (refs : List DynamicRef) (items : Block) (around : List OpenBlock)
    (read : Except Fault Block) (before rest : List Char) (last : Terminator × Nat × List Char) :
    Prop :=
  ∃ inside after, rest = inside ++ after ∧ last.1.Ends after ∧
    last.2 = (byteLength (before ++ inside), trim (stripComments inside)) ∧
    read = Reading.run refs
      ⟨(before ++ inside).length, items, around, some ⟨before.length, inside, 0⟩⟩ after

theorem preludeAt_matches (htext : css.chars = before ++ rest)
    (hread : read =
      Reading.run refs ⟨before.length, items, around, some ⟨before.length, [], 0⟩⟩ rest) :
    Matches css.chars read (PreludeRead refs items around read before rest)
      (css.preludeAt (byteLength before)) := by
  refine (scanPrelude_matches htext hread).bind ?_
  rintro ⟨terminator, pos⟩ ⟨inside, after, rfl, hends, hpos, hrun⟩
  have hraw := between?_append before inside after
  rw [← htext, ← byteLength_append] at hraw
  simp only [hpos, hraw, removeComments_eq, Checked.lift_some, pure_bind, List.nil_append] at hrun ⊢
  exact .result ⟨inside, after, rfl, hends, rfl, hrun⟩

end

end AtomicStyle.CssText
