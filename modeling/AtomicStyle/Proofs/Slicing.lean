import AtomicStyle.Proofs.Collapsing
import AtomicStyle.Proofs.Declaring
import AtomicStyle.Proofs.Offsets
import AtomicStyle.Proofs.Searching

/-!
# Texts cut at offsets

Comments, names, values, selectors and markers are found by their offsets, and the text is cut there.
A cut has no result at an offset beyond the end of the text or inside a character, and a loop has none
if it does not end.  Here the functions on the texts of preludes are written with such cuts and loops.
They always have a result, and it is that of the functions on characters.

Results:
1. `removeComments_eq`: comments.
2. `splitAtRuleAt?_eq`, `splitSelectorsAt?_eq`, `nestedAt?_eq`: the preludes of blocks.
3. `splitImportantAt?_eq`, `valuePartsAt_eq`, `declarationAt_eq`: declarations.
4. `lineColumnAt?_eq`: lines and columns.
-/

namespace AtomicStyle

/-- A text that is read at offsets, and the references that its markers stand for. -/
structure CssText where
  chars : List Char
  refs : List DynamicRef

namespace CssText

open AtomicStyle.Css AtomicStyle.Text

/-! ## Comments -/

/-- What stands behind an offset is shorter than the text. -/
theorem length_lt_of_back? {s after : List Char} {offset : Nat}
    (h : back? s (offset + 1) = some after) : after.length < s.length := by
  obtain ⟨⟨before, inside, rest⟩, hparts, rfl⟩ := Option.map_eq_some_iff.mp h
  obtain ⟨htext, hbefore, -⟩ := Span.parts?_eq_some_iff.mp hparts
  have hne : before ≠ [] := by
    rintro rfl
    cases hbefore
  have hpos := List.length_pos_iff.mpr hne
  show inside.length < s.length
  rw [htext, List.length_append, List.length_append]
  omega

/-- Removes the comments of `rest`; what is left follows `out`.  What stands behind a comment is
shorter, so this ends. -/
def removeComments (out rest : List Char) : Option (List Char) := do
  match offsetOf? ['/', '*'] rest with
  | none => return out ++ rest
  | some start =>
    let before ← front? rest start
    let inside ← back? rest (start + 2)
    match offsetOf? ['*', '/'] inside with
    | none => return out ++ before
    | some length =>
      match _ : back? rest (start + 2 + length + 2) with
      | none => none
      | some later => removeComments (out ++ before) later
termination_by rest.length
decreasing_by exact length_lt_of_back? ‹_›

/-- Two characters in a row are found at the begin, or further on. -/
theorem cut?_pair_cons {c d e : Char} {rest before after : List Char}
    (h : cut? [c, d] (e :: rest) = some (before, after)) :
    (before = [] ∧ e = c ∧ rest = d :: after) ∨
      ∃ front, before = e :: front ∧ (e = c → rest.head? ≠ some d) ∧
        cut? [c, d] rest = some (front, after) := by
  rw [cut?] at h
  split at h
  · next hfound =>
    obtain ⟨later, hlater⟩ := List.isPrefixOf_iff_prefix.mp hfound
    cases hlater
    cases h
    exact Or.inl ⟨rfl, rfl, rfl⟩
  · next hfound =>
    obtain ⟨⟨front, after⟩, hcut, hparts⟩ := Option.map_eq_some_iff.mp h
    cases hparts
    refine Or.inr ⟨front, rfl, ?_, hcut⟩
    rintro rfl hd
    obtain ⟨later, rfl⟩ := List.head?_eq_some_iff.mp hd
    exact hfound (List.isPrefixOf_iff_prefix.mpr ⟨later, rfl⟩)

theorem stripComments_of_cut {s before after : List Char}
    (h : cut? ['/', '*'] s = some (before, after)) :
    stripComments s = before ++ stripCommentsFrom true after := by
  unfold stripComments
  induction s generalizing before with
  | nil => cases h
  | cons c rest ih =>
    rcases cut?_pair_cons h with ⟨rfl, rfl, rfl⟩ | ⟨front, rfl, hopen, hcut⟩
    · rw [stripCommentsFrom]
      rfl
    · rw [stripCommentsFrom.eq_3, ih hcut]
      · rfl
      · rintro later rfl rfl
        exact hopen rfl rfl

theorem stripCommentsFrom_of_cut {s before after : List Char}
    (h : cut? ['*', '/'] s = some (before, after)) :
    stripCommentsFrom true s = stripComments after := by
  induction s generalizing before with
  | nil => cases h
  | cons c rest ih =>
    rcases cut?_pair_cons h with ⟨rfl, rfl, rfl⟩ | ⟨front, rfl, hclose, hcut⟩
    · rw [stripCommentsFrom]
      rfl
    · rw [stripCommentsFrom.eq_5, ih hcut]
      rintro later rfl rfl
      exact hclose rfl rfl

theorem stripCommentsFrom_of_none {s : List Char} (h : cut? ['*', '/'] s = none) :
    stripCommentsFrom true s = [] := by
  induction s with
  | nil => rfl
  | cons c rest ih =>
    obtain ⟨hclose, hrest⟩ := cut?_cons_eq_none.mp h
    rw [stripCommentsFrom.eq_5, ih hrest]
    rintro rest' rfl rfl
    exact hclose ⟨rest', rfl⟩

theorem removeComments_eq (out rest : List Char) :
    removeComments out rest = some (out ++ stripComments rest) := by
  -- what follows a comment is shorter than the text
  induction hn : rest.length using Nat.strong_induction_on generalizing out rest with
  | _ n ih =>
    rw [removeComments]
    cases hopen : cut? ['/', '*'] rest with
    | none =>
      rw [offsetOf?_of_none hopen, stripComments_eq_self hopen]
      rfl
    | some parts =>
      obtain ⟨before, inside⟩ := parts
      have hinside : inside.length < n := hn ▸ length_lt_of_cut? (by decide) hopen
      have hback : back? rest (byteLength before + 2) = some inside := back?_of_cut hopen
      simp only [offsetOf?_of_some hopen, front?_of_cut hopen, hback, Option.bind_eq_bind,
        Option.bind_some]
      rw [stripComments_of_cut hopen]
      cases hclose : cut? ['*', '/'] inside with
      | none =>
        rw [offsetOf?_of_none hclose, stripCommentsFrom_of_none hclose, List.append_nil]
        rfl
      | some parts =>
        obtain ⟨body, later⟩ := parts
        have hlater : later.length < inside.length := length_lt_of_cut? (by decide) hclose
        have hrest : back? rest (byteLength before + 2 + byteLength body + 2) = some later := by
          have hsplit : rest = (before ++ ['/', '*'] ++ body ++ ['*', '/']) ++ later := by
            rw [eq_of_cut? hopen, eq_of_cut? hclose]
            simp
          have hcut := back?_append (before ++ ['/', '*'] ++ body ++ ['*', '/']) later
          rwa [← hsplit, byteLength_append, byteLength_append, byteLength_append] at hcut
        simp only [offsetOf?_of_some hclose]
        split
        · next hnone =>
          rw [hrest] at hnone
          cases hnone
        · next later' hsome =>
          cases hrest.symm.trans hsome
          rw [ih later.length (by omega) _ _ rfl, stripCommentsFrom_of_cut hclose, List.append_assoc]

/-! ## Preludes of blocks -/

/-- The offset of the first character that fails a test. -/
def offsetWhile (p : Char → Bool) (s : List Char) : Nat :=
  byteLength (s.takeWhile p)

theorem front?_offsetWhile (p : Char → Bool) (s : List Char) :
    front? s (offsetWhile p s) = some (s.takeWhile p) := by
  have h := front?_append (s.takeWhile p) (s.dropWhile p)
  rwa [List.takeWhile_append_dropWhile] at h

theorem back?_offsetWhile (p : Char → Bool) (s : List Char) :
    back? s (offsetWhile p s) = some (s.dropWhile p) := by
  have h := back?_append (s.takeWhile p) (s.dropWhile p)
  rwa [List.takeWhile_append_dropWhile] at h

/-- The name and the parameters of an at-rule. -/
def splitAtRuleAt? (prelude : String) : Option (String × String) := do
  let body := (trim prelude.toList).dropWhile (· == '@')
  let stop := offsetWhile (fun c => !(isBlank c || c == '(')) body
  let name ← front? body stop
  let params ← back? body stop
  return (lower (String.ofList name), String.ofList (collapseChars params))

theorem splitAtRuleAt?_eq (prelude : String) :
    splitAtRuleAt? prelude = some (splitAtRule prelude) := by
  simp only [splitAtRuleAt?, front?_offsetWhile, back?_offsetWhile]
  rfl

/-- The offsets at which a character stands at the top level, in marked characters that begin at the
given offset. -/
def topOffsets (c : Char) (offset : Nat) : List (Char × Bool) → List Nat
  | [] => []
  | (d, top) :: rest =>
    let later := topOffsets c (offset + d.utf8Size) rest
    if (d, top) == (c, true) then offset :: later else later

/-- The pieces of a text from an offset on, between separators of one byte at the given offsets. -/
def piecesAt? (s : List Char) (start : Nat) : List Nat → Option (List (List Char))
  | [] => do
    let piece ← back? s start
    return [piece]
  | stop :: stops => do
    let piece ← between? s start stop
    let pieces ← piecesAt? s (stop + 1) stops
    return piece :: pieces

/-- The piece that has begun is given last character first. -/
theorem piecesAt?_topOffsets {c : Char} (hc : c.utf8Size = 1) {s done : List Char}
    {begun marked : List (Char × Bool)} (hs : s = done ++ unmark begun.reverse ++ unmark marked) :
    piecesAt? s (byteLength done) (topOffsets c (byteLength (done ++ unmark begun.reverse)) marked) =
      some ((marked.splitOnPPrepend (· == (c, true)) begun).map unmark) := by
  induction marked generalizing done begun with
  | nil =>
    have hback := back?_append done (unmark begun.reverse)
    rw [hs, topOffsets, piecesAt?, List.splitOnPPrepend_nil]
    simp only [unmark, List.map_nil, List.append_nil] at hback ⊢
    rw [hback]
    rfl
  | cons item marked ih =>
    obtain ⟨d, top⟩ := item
    cases hd : (d, top) == (c, true) with
    | true =>
      cases eq_of_beq hd
      have hpiece := between?_append done (unmark begun.reverse) (unmark ((c, true) :: marked))
      have hrest := @ih (done ++ unmark begun.reverse ++ [c]) [] (by simpa [unmark] using hs)
      rw [← List.append_assoc, ← hs, ← byteLength_append] at hpiece
      simp only [List.reverse_nil, byteLength_append, byteLength_cons, byteLength_nil, hc, unmark,
        List.map_nil] at hrest
      simp only [topOffsets, beq_self_eq_true, if_true, piecesAt?, hpiece]
      simp only [byteLength_append, hc, unmark, hrest]
      rw [List.splitOnPPrepend_cons_pos (by simp)]
      rfl
    | false =>
      have hrest := @ih done ((d, top) :: begun) (by simpa [unmark] using hs)
      rw [List.splitOnPPrepend_cons_neg (p := (· == (c, true))) hd, ← hrest]
      simp [topOffsets, hd, unmark, Nat.add_assoc]

/-- The selectors of a list separated by commas. -/
def splitSelectorsAt? (selectors : String) : Option (List String) := do
  let pieces ← piecesAt? selectors.toList 0 (topOffsets ',' 0 (mark selectors.toList))
  return ((pieces.map trim).filter (!·.isEmpty)).map String.ofList

theorem splitSelectorsAt?_eq (selectors : String) :
    splitSelectorsAt? selectors = some (splitSelectors selectors) := by
  have hcomma : ','.utf8Size = 1 := by decide
  have hpieces : piecesAt? selectors.toList 0 (topOffsets ',' 0 (mark selectors.toList)) =
      some (splitTop ',' selectors.toList) :=
    @piecesAt?_topOffsets ',' hcomma selectors.toList [] [] (mark selectors.toList)
      (by rw [unmark_mark]; rfl)
  rw [splitSelectorsAt?, hpieces]
  rfl

/-- The rule or at-rule with the given prelude around a block. -/
def nestedAt? (prelude : List Char) (body : Block) : Option Block := do
  let text := String.ofList prelude
  if isAtKey text then
    let (name, params) ← splitAtRuleAt? text
    return .atRule name params body .nil
  else
    return .rule (← splitSelectorsAt? text) body .nil

theorem nestedAt?_eq (prelude : List Char) (body : Block) :
    nestedAt? prelude body = some (nested prelude body) := by
  unfold nestedAt? nested
  simp only [splitAtRuleAt?_eq, splitSelectorsAt?_eq]
  split <;> rfl

/-! ## Importance -/

/-- A text without `tail` at its end, where it has one. -/
def stripEnd? (tail s : List Char) : Option (List Char) :=
  if tail.isSuffixOf s then some (s.take (s.length - tail.length)) else none

theorem stripEnd?_eq_some_iff {tail s rest : List Char} :
    stripEnd? tail s = some rest ↔ s = rest ++ tail := by
  unfold stripEnd?
  constructor
  · intro h
    split at h
    · next hsuffix =>
      obtain ⟨before, rfl⟩ := List.isSuffixOf_iff_suffix.mp hsuffix
      cases h
      simp
    · cases h
  · rintro rfl
    rw [if_pos (List.isSuffixOf_iff_suffix.mpr (List.suffix_append rest tail))]
    simp

/-- The small letter of a character is blank, takes as many bytes and is an exclamation mark just if
the character does. -/
theorem toLower_keeps (c : Char) :
    isBlank c.toLower = isBlank c ∧ c.toLower.utf8Size = c.utf8Size ∧
      (c.toLower = '!' → c = '!') := by
  cases hupper : c.isUpper with
  | false =>
    rw [toLower_of_not_isUpper hupper]
    exact ⟨rfl, rfl, id⟩
  | true =>
    have hall : ∀ n < 91, 65 ≤ n →
        isBlank (Char.ofNat n).toLower = isBlank (Char.ofNat n) ∧
          (Char.ofNat n).toLower.utf8Size = (Char.ofNat n).utf8Size ∧
            ((Char.ofNat n).toLower = '!' → Char.ofNat n = '!') := by decide
    obtain ⟨hlow, hhigh⟩ := toNat_of_isUpper hupper
    have hc := hall c.toNat hhigh hlow
    rwa [Char.ofNat_toNat] at hc

theorem byteLength_map_toLower (s : List Char) :
    byteLength (s.map Char.toLower) = byteLength s := by
  induction s with
  | nil => rfl
  | cons c s ih => rw [List.map_cons, byteLength_cons, byteLength_cons, ih, (toLower_keeps c).2.1]

theorem trimEnd_map_toLower (s : List Char) :
    trimEnd (s.map Char.toLower) = (trimEnd s).map Char.toLower := by
  have hblank : isBlank ∘ Char.toLower = isBlank := funext fun c => (toLower_keeps c).1
  rw [trimEnd, trimEnd, ← List.map_reverse, List.dropWhile_map, hblank, List.map_reverse]

/-- A value and whether `!important` was split off its end. -/
def splitImportantAt? (value : String) : Option (String × Bool) := do
  let text := trimEnd value.toList
  match stripEnd? "important".toList (text.map Char.toLower) with
  | none => return (value, false)
  | some before =>
    match stripEnd? ['!'] (trimEnd before) with
    | none => return (value, false)
    | some before =>
      let kept ← front? text (byteLength before)
      return (String.ofList (trimEnd kept), true)

/-- The word `important` ends with no blank. -/
theorem trimEnd_append_important {word : List Char}
    (h : word.map Char.toLower = "important".toList) (s : List Char) :
    trimEnd (s ++ word) = s ++ word := by
  rcases List.eq_nil_or_concat word with rfl | ⟨front, c, rfl⟩
  · cases h
  · have hc : isBlank c = false := noBlank_of_important h c (by simp)
    rw [List.concat_eq_append, ← List.append_assoc, trimEnd_append_singleton hc]

/-- What is found by its small letters is `!important`. -/
theorem exists_of_stripEnd? {s lowered before : List Char}
    (hword : stripEnd? "important".toList ((trimEnd s).map Char.toLower) = some lowered)
    (hmark : stripEnd? ['!'] (trimEnd lowered) = some before) :
    ∃ kept tail, trimEnd s = kept ++ tail ∧ byteLength kept = byteLength before ∧
      IsImportance tail := by
  rw [stripEnd?_eq_some_iff] at hword hmark
  obtain ⟨text, word, htext, rfl, hsmall⟩ := List.map_eq_append_iff.mp hword
  rw [trimEnd_map_toLower] at hmark
  obtain ⟨kept, last, hkept, rfl, hlast⟩ := List.map_eq_append_iff.mp hmark
  obtain ⟨c, rfl, hc⟩ := List.map_eq_singleton_iff.mp hlast
  obtain rfl := (toLower_keeps c).2.2 hc
  obtain ⟨blanks, hblanks, hsplit⟩ := exists_eq_trimEnd_append text
  refine ⟨kept, '!' :: (blanks ++ (word ++ [])), ?_, (byteLength_map_toLower kept).symm, blanks,
    word, [], rfl, hblanks, fun d hd => absurd hd List.not_mem_nil, hsmall⟩
  rw [htext, hsplit, hkept]
  simp

/-- An `!important` at the end is found by its small letters. -/
theorem exists_stripEnd? {s rest : List Char} (h : stripImportant? (trimEnd s) = some rest) :
    ∃ lowered before,
      stripEnd? "important".toList ((trimEnd s).map Char.toLower) = some lowered ∧
        stripEnd? ['!'] (trimEnd lowered) = some before := by
  obtain ⟨-, gap, _, htext, -, blanks, word, ending, rfl, hblanks, hending, hword⟩ :=
    exists_of_stripImportant? h
  have hsplit : trimEnd s = rest ++ gap ++ '!' :: blanks ++ word := by
    rw [← trimEnd_append_important hword (rest ++ gap ++ '!' :: blanks),
      ← trimEnd_append_of_allBlank hending (rest ++ gap ++ '!' :: blanks ++ word), ← trimEnd_trimEnd,
      htext]
    simp
  have hmark : trimEnd ((rest ++ gap ++ '!' :: blanks).map Char.toLower) =
      (rest ++ gap).map Char.toLower ++ ['!'] := by
    rw [trimEnd_map_toLower, List.append_cons, trimEnd_append_of_allBlank hblanks,
      trimEnd_append_singleton (by decide), List.map_append]
    rfl
  refine ⟨_, _, stripEnd?_eq_some_iff.mpr ?_, stripEnd?_eq_some_iff.mpr hmark⟩
  rw [hsplit, List.map_append, hword]

theorem splitImportantAt?_eq (value : String) :
    splitImportantAt? value = some (splitImportant value) := by
  unfold splitImportantAt? splitImportant
  rw [← stripImportant?_trimEnd]
  cases hstrip : stripImportant? (trimEnd value.toList) with
  | some rest =>
    obtain ⟨lowered, before, hword, hmark⟩ := exists_stripEnd? hstrip
    obtain ⟨kept, tail, htext, hbytes, htail⟩ := exists_of_stripEnd? hword hmark
    rw [htext, stripImportant?_append htail] at hstrip
    cases hstrip
    simp only [hword, hmark]
    rw [htext, ← hbytes, front?_append]
    rfl
  | none =>
    cases hword : stripEnd? "important".toList ((trimEnd value.toList).map Char.toLower) with
    | none => simp only [hword, Option.pure_def]
    | some lowered =>
      cases hmark : stripEnd? ['!'] (trimEnd lowered) with
      | none => simp only [hword, hmark, Option.pure_def]
      | some before =>
        obtain ⟨kept, tail, htext, -, htail⟩ := exists_of_stripEnd? hword hmark
        rw [htext, stripImportant?_append htail] at hstrip
        cases hstrip

/-- Splits `!important` off the last part of a value, if that part is text. -/
def splitLastAt? : List ValuePart → Option (List ValuePart × Bool)
  | [] => return ([], false)
  | [.text s] => do
    let (rest, important) ← splitImportantAt? s
    return ([.text rest], important)
  | [part] => return ([part], false)
  | part :: next :: rest => do
    let (parts, important) ← splitLastAt? (next :: rest)
    return (part :: parts, important)

theorem splitLastAt?_eq (value : List ValuePart) :
    splitLastAt? value = some (Declaration.splitLast value) := by
  induction value with
  | nil => rfl
  | cons part rest ih =>
    cases rest with
    | nil =>
      cases part with
      | text s =>
        rw [splitLastAt?, splitImportantAt?_eq]
        rfl
      | dynamic ref => rfl
    | cons next rest =>
      rw [splitLastAt?, ih]
      cases part <;> rfl

/-- The declaration of a value that may end in `!important`. -/
def ofPartsAt? (property : String) (value : List ValuePart) : Option Declaration := do
  let (parts, important) ← splitLastAt? value
  return ⟨property, parts.filter (!Declaration.isEmptyText ·), important⟩

theorem ofPartsAt?_eq (property : String) (value : List ValuePart) :
    ofPartsAt? property value = some (Declaration.ofParts property value) := by
  rw [ofPartsAt?, splitLastAt?_eq]
  rfl

/-! ## Declarations -/

/-- A computation that ends with a result or a fault; `none` is one that does not end, or that cuts a
text where it cannot be cut. -/
abbrev Checked (ε α : Type) := ExceptT ε Option α

namespace Checked

variable {ε α β : Type}

/-- The computation with the given end. -/
def ofExcept (result : Except ε α) : Checked ε α :=
  ExceptT.mk (some result)

theorem lift_some (a : α) : (liftM (some a) : Checked ε α) = pure a := rfl

theorem throw_bind (fault : ε) (next : α → Checked ε β) :
    (throw fault : Checked ε α) >>= next = throw fault := rfl

end Checked

/-- The parts of a value in which markers stand for references; they follow `done`. -/
def valuePartsAt (css : CssText) (done : List ValuePart) (rest : List Char) :
    Checked CssFault (List ValuePart) := do
  match offsetOf? markerOpen rest with
  | none => return done ++ (if rest.isEmpty then [] else [.text (String.ofList rest)])
  | some found =>
    let before ← front? rest found
    let after ← back? rest (found + byteLength markerOpen)
    let stop := offsetWhile Char.isDigit after
    let digits ← front? after stop
    let ending ← back? after stop
    if digits.isEmpty || !markerClose.isPrefixOf ending then throw .invalidMarker
    else
      match css.refs[Number.ofDigits digits]? with
      | none => throw .invalidMarker
      | some ref =>
        let later ← back? after (stop + byteLength markerClose)
        let lead := if found == 0 then [] else [ValuePart.text (String.ofList before)]
        css |>.valuePartsAt (done ++ lead ++ [.dynamic ref]) later
partial_fixpoint

theorem valueParts?_of_none {refs : List DynamicRef} {value : List Char}
    (h : cut? markerOpen value = none) :
    valueParts? refs value = some (if value.isEmpty then [] else [.text (String.ofList value)]) := by
  rw [valueParts?]
  split
  · rfl
  · next hcut =>
    rw [h] at hcut
    cases hcut

theorem valueParts?_of_some {refs : List DynamicRef} {value before after : List Char}
    (h : cut? markerOpen value = some (before, after)) :
    valueParts? refs value =
      if (after.takeWhile Char.isDigit).isEmpty ||
          !markerClose.isPrefixOf (after.dropWhile Char.isDigit) then none
      else do
        let ref ← refs[Number.ofDigits (after.takeWhile Char.isDigit)]?
        let parts ← valueParts? refs ((after.dropWhile Char.isDigit).drop markerClose.length)
        return (if before.isEmpty then [] else [ValuePart.text (String.ofList before)]) ++
          .dynamic ref :: parts := by
  rw [valueParts?]
  split
  · next hcut =>
    rw [h] at hcut
    cases hcut
  · next hcut =>
    rw [h] at hcut
    cases hcut
    split <;> rfl

theorem byteLength_beq_zero (s : List Char) : (byteLength s == 0) = s.isEmpty := by
  rw [Bool.eq_iff_iff, beq_iff_eq, List.isEmpty_iff]
  exact ⟨eq_nil_of_byteLength_eq_zero, fun h => by rw [h, byteLength_nil]⟩

theorem valuePartsAt_eq (css : CssText) (done : List ValuePart) (value : List Char) :
    css.valuePartsAt done value = Checked.ofExcept ((valueParts? css.refs value).elim
      (.error .invalidMarker) fun parts => .ok (done ++ parts)) := by
  -- what follows a marker is shorter than the value
  induction hn : value.length using Nat.strong_induction_on generalizing done value with
  | _ n ih =>
    rw [valuePartsAt]
    cases hcut : cut? markerOpen value with
    | none =>
      rw [offsetOf?_of_none hcut, valueParts?_of_none hcut]
      rfl
    | some parts =>
      obtain ⟨before, after⟩ := parts
      have hafter : after.length < n := hn ▸ length_lt_of_cut? (by decide) hcut
      simp only [offsetOf?_of_some hcut, front?_of_cut hcut, back?_of_cut hcut, front?_offsetWhile,
        back?_offsetWhile, Checked.lift_some, pure_bind]
      rw [valueParts?_of_some hcut]
      split
      · rfl
      · next hmarker =>
        cases hget : css.refs[Number.ofDigits (after.takeWhile Char.isDigit)]? with
        | none => rfl
        | some ref =>
          simp only [Bool.or_eq_true, Bool.not_eq_true', not_or, Bool.not_eq_false] at hmarker
          obtain ⟨later, hlater⟩ := List.isPrefixOf_iff_prefix.mp hmarker.2
          have hback : back? after (offsetWhile Char.isDigit after + byteLength markerClose) =
              some later := by
            have hsplit : after = after.takeWhile Char.isDigit ++ markerClose ++ later := by
              rw [List.append_assoc, hlater, List.takeWhile_append_dropWhile]
            have hcut := back?_append (after.takeWhile Char.isDigit ++ markerClose) later
            rwa [← hsplit, byteLength_append] at hcut
          have hshort : later.length < n := by
            have := (List.dropWhile_sublist (p := Char.isDigit) (l := after)).length_le
            rw [← hlater, List.length_append] at this
            omega
          have hdrop : (after.dropWhile Char.isDigit).drop markerClose.length = later := by
            rw [← hlater, List.drop_left]
          simp only [hback, Checked.lift_some, pure_bind]
          rw [hdrop, ih later.length hshort _ _ rfl]
          cases valueParts? css.refs later with
          | none => rfl
          | some parts =>
            rw [byteLength_beq_zero, Option.elim_some, List.append_assoc, List.append_assoc]
            rfl

/-- The offset of the first occurrence of a character at the top level. -/
def offsetOfTop? (c : Char) (s : List Char) : Option Nat :=
  (cutTop? c s).map fun parts => byteLength parts.1

theorem eq_of_cutTop? {c : Char} {s before after : List Char}
    (h : cutTop? c s = some (before, after)) : s = before ++ c :: after := by
  unfold cutTop? at h
  dsimp only at h
  split at h
  · cases h
  · next item later hlater =>
    cases h
    have hitem := List.head_dropWhile_not (· != (c, true)) (l := mark s) (by simp [hlater])
    simp only [hlater, List.head_cons, bne_eq_false_iff_eq] at hitem
    have hsplit := List.takeWhile_append_dropWhile (p := (· != (c, true))) (l := mark s)
    rw [hlater, hitem] at hsplit
    conv => lhs; rw [← unmark_mark s, ← hsplit]
    simp [unmark]

/-- The declaration that a text spells. -/
def declarationAt (css : CssText) (text : List Char) : Checked CssFault Declaration := do
  match offsetOfTop? ':' text with
  | none => throw (.missingColon (String.ofList text))
  | some colon =>
    let before ← front? text colon
    let after ← back? text (colon + 1)
    let property := trim before
    let value := collapseChars after
    if property.isEmpty then throw .missingProperty
    else if hasMarker property then throw .misplacedInterpolation
    else if value.isEmpty then throw (.emptyValue (String.ofList property))
    else
      let name := String.ofList property
      let parts ← css.valuePartsAt [] value
      ofPartsAt? (if isCustom name then name else lower name) parts

theorem declarationAt_eq (css : CssText) (text : List Char) :
    css.declarationAt text = Checked.ofExcept (declaration css.refs text) := by
  unfold declarationAt declaration offsetOfTop?
  cases hcut : cutTop? ':' text with
  | none => rfl
  | some parts =>
    obtain ⟨before, after⟩ := parts
    have htext := eq_of_cutTop? hcut
    have hfront : front? text (byteLength before) = some before := by
      rw [htext]
      exact front?_append before _
    have hback : back? text (byteLength before + 1) = some after := by
      have hcolon := back?_append (before ++ [':']) after
      rwa [byteLength_concat (by decide), List.append_assoc, List.singleton_append, ← htext] at hcolon
    simp only [Option.map_some, hfront, hback, Checked.lift_some, pure_bind, valuePartsAt_eq,
      ofPartsAt?_eq]
    split
    · rfl
    · split
      · rfl
      · split
        · rfl
        · cases valueParts? css.refs (collapseChars after) <;> rfl

/-! ## Lines and columns -/

/-- The last offset between characters up to the given one. -/
def boundary? (text : List Char) : Nat → Option Nat
  | 0 => some 0
  | n + 1 => if (splitAtByte? (n + 1) text).isSome then some (n + 1) else boundary? text n

/-- The offset of the last occurrence of a character. -/
def lastOffsetOf? (c : Char) : List Char → Option Nat
  | [] => none
  | d :: rest =>
    match lastOffsetOf? c rest with
    | some offset => some (d.utf8Size + offset)
    | none => if d == c then some 0 else none

/-- The line and the column of an offset, which may lie beyond the end. -/
def lineColumnAt? (text : List Char) (offset : Nat) : Option (Nat × Nat) := do
  let stop ← boundary? text (min offset (byteLength text))
  let before ← front? text stop
  let line := before.count '\n' + 1
  match lastOffsetOf? '\n' before with
  | none => return (line, before.length + 1)
  | some newline =>
    let last ← back? before (newline + 1)
    return (line, last.length + 1)

theorem boundary?_append (before after : List Char) :
    boundary? (before ++ after) (byteLength before) = some (byteLength before) := by
  have hsplit : splitAtByte? (byteLength before) (before ++ after) = some (before, after) :=
    splitAtByte?_eq_some_iff.mpr ⟨rfl, rfl⟩
  generalize byteLength before = offset at hsplit ⊢
  cases offset with
  | zero => rfl
  | succ n => rw [boundary?, hsplit, Option.isSome_some, if_pos rfl]

theorem lastOffsetOf?_of_not_mem {c : Char} {s : List Char} (h : c ∉ s) :
    lastOffsetOf? c s = none := by
  induction s with
  | nil => rfl
  | cons d s ih =>
    rw [List.mem_cons, not_or] at h
    rw [lastOffsetOf?, ih h.2]
    exact if_neg (by simpa using Ne.symm h.1)

theorem lastOffsetOf?_append {c : Char} {last : List Char} (h : c ∉ last) (s : List Char) :
    lastOffsetOf? c (s ++ c :: last) = some (byteLength s) := by
  induction s with
  | nil =>
    rw [List.nil_append, lastOffsetOf?, lastOffsetOf?_of_not_mem h]
    exact if_pos (beq_self_eq_true c)
  | cons d s ih => rw [List.cons_append, lastOffsetOf?, ih, byteLength_cons]

theorem lineColumnAt?_eq {text : List Char} {offset n : Nat}
    (h : min offset (byteLength text) = byteLength (text.take n)) :
    lineColumnAt? text offset = some (lineColumn (text.take n)) := by
  have hboundary := boundary?_append (text.take n) (text.drop n)
  have hfront := front?_append (text.take n) (text.drop n)
  rw [List.take_append_drop] at hboundary hfront
  rw [lineColumnAt?, h, hboundary]
  simp only [Option.bind_eq_bind, Option.bind_some, hfront]
  generalize text.take n = before
  by_cases hline : '\n' ∈ before
  · obtain ⟨last, lines, hsplit, hlast⟩ := List.eq_append_cons_of_mem (List.mem_reverse.mpr hline)
    obtain rfl : before = lines.reverse ++ '\n' :: last.reverse := by
      rw [← List.reverse_reverse before, hsplit]
      simp
    have hback := back?_append (lines.reverse ++ ['\n']) last.reverse
    rw [byteLength_concat (by decide), List.append_assoc, List.singleton_append] at hback
    rw [lineColumn, hsplit, takeWhile_bne_append hlast, lastOffsetOf?_append (by simpa using hlast)]
    simp only [hback, Option.bind_some, List.length_reverse, Option.pure_def]
  · have hall : ∀ c ∈ before.reverse, (c != '\n') = true :=
      fun c hc => bne_iff_ne.mpr (ne_of_mem_of_not_mem (List.mem_reverse.mp hc) hline)
    rw [lastOffsetOf?_of_not_mem hline, lineColumn, List.takeWhile_eq_self_iff.mpr hall,
      List.length_reverse]
    rfl

end CssText

end AtomicStyle
