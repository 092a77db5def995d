import AtomicStyle.Proofs.Preludes

/-!
# Removed comments

What the comments that are removed from a prelude do to the declaration or the block that it belongs
to.  A slash is lost with every comment, and nothing else that is done to a prelude loses one; so the
slashes of what has been read tell whether a comment was seen where there is none.

Results:
1. `count_stripComments_lt`: a comment that is removed takes a slash with it.
2. `count_of_nested_eq`, `count_spelled_ofParts`: slashes in what has been read.
3. `declaration_eq_iff`, `nested_stripComments_eq_iff`: values and preludes that stay as they are.
4. `parse_keeps_quoted_iff`: the declarations and blocks that keep their quoted texts.
-/

namespace AtomicStyle.CssText

open AtomicStyle.Css AtomicStyle.Text

/-! ## Slashes in texts -/

theorem stripCommentsFrom_sublist (inside : Bool) (s : List Char) :
    (stripCommentsFrom inside s).Sublist s := by
  fun_induction stripCommentsFrom inside s with
  | case1 => exact List.Sublist.refl []
  | case2 rest ih => exact (ih.cons '*').cons '/'
  | case3 c rest _ ih => exact ih.cons_cons c
  | case4 rest ih => exact (ih.cons '/').cons '*'
  | case5 c rest _ ih => exact ih.cons c

/-- A comment that is removed takes a slash with it. -/
theorem count_stripComments_lt {s : List Char} (h : ¬ NoComment s) :
    (stripComments s).count '/' < s.count '/' := by
  induction s with
  | nil => exact absurd (by decide) h
  | cons c rest ih =>
    by_cases hopens : c = '/' ∧ rest.head? = some '*'
    · obtain ⟨rfl, hstar⟩ := hopens
      obtain ⟨rest, rfl⟩ := List.head?_eq_some_iff.mp hstar
      rw [stripComments, stripCommentsFrom, List.count_cons_self,
        List.count_cons_of_ne (by decide)]
      exact Nat.lt_succ_of_le ((stripCommentsFrom_sublist true rest).count_le '/')
    · have hslash : c = '/' → rest.head? ≠ some '*' := fun hc hstar => hopens ⟨hc, hstar⟩
      have hrest : ¬ NoComment rest := fun hrest => h (noComment_cons.mpr ⟨hslash, hrest⟩)
      have hstrip : stripComments (c :: rest) = c :: stripComments rest := by
        refine stripCommentsFrom.eq_3 c rest ?_
        rintro rest' hc rfl
        exact hslash hc rfl
      rw [hstrip, List.count_cons, List.count_cons]
      exact Nat.add_lt_add_right (ih hrest) _

theorem count_filter_isBlank (s : List Char) : (s.filter (!isBlank ·)).count '/' = s.count '/' :=
  List.count_filter (by decide)

theorem count_of_allBlank {s : List Char} (h : AllBlank s) : s.count '/' = 0 := by
  rw [← count_filter_isBlank, allBlank_iff_filter.mp h]
  rfl

theorem count_collapseChars (s : List Char) : (collapseChars s).count '/' = s.count '/' := by
  rw [collapseChars, ← count_filter_isBlank, filter_collapseFrom, count_filter_isBlank]

theorem count_trim (s : List Char) : (trim s).count '/' = s.count '/' := by
  obtain ⟨before, after, hs, hbefore, hafter⟩ := exists_eq_trim s
  conv => rhs; rw [hs]
  rw [List.count_append, List.count_append, count_of_allBlank hbefore, count_of_allBlank hafter,
    Nat.zero_add, Nat.add_zero]

theorem count_trimEnd (s : List Char) : (trimEnd s).count '/' = s.count '/' := by
  obtain ⟨blanks, hblanks, hs⟩ := exists_eq_trimEnd_append s
  conv => rhs; rw [hs]
  rw [List.count_append, count_of_allBlank hblanks, Nat.add_zero]

theorem toLower_eq_slash_iff {c : Char} : c.toLower = '/' ↔ c = '/' := by
  cases hupper : c.isUpper with
  | false => rw [toLower_of_not_isUpper hupper]
  | true =>
    refine iff_of_false ?_ ?_
    · exact ne_of_isSimple (isSimple_toLower hupper).1 (by decide)
    · rintro rfl
      cases hupper

theorem count_map_toLower (s : List Char) : (s.map Char.toLower).count '/' = s.count '/' := by
  rw [List.count, List.countP_map]
  refine List.countP_congr fun c _ => ?_
  simp [toLower_eq_slash_iff]

/-! ## Slashes in what has been read -/

theorem count_splitAtRule (text : String) : (splitAtRule text).1.toList.count '/' +
    (splitAtRule text).2.toList.count '/' = text.toList.count '/' := by
  have hat : ((trim text.toList).dropWhile (· == '@')).count '/' = text.toList.count '/' := by
    have hskipped : ((trim text.toList).takeWhile (· == '@')).count '/' = 0 := by
      refine List.count_eq_zero.mpr fun hmem => ?_
      cases List.all_eq_true.mp List.all_takeWhile '/' hmem
    rw [← count_trim text.toList]
    conv => rhs; rw [← List.takeWhile_append_dropWhile (p := (· == '@')) (l := trim text.toList)]
    rw [List.count_append, hskipped, Nat.zero_add]
  unfold splitAtRule lower
  dsimp only
  rw [String.toList_ofList, String.toList_ofList, String.toList_ofList, count_map_toLower,
    count_collapseChars, ← List.count_append, List.takeWhile_append_dropWhile, hat]

theorem count_splitTop (separator : Char) (hne : separator ≠ '/') (s : List Char) :
    (splitTop separator s).flatten.count '/' = s.count '/' := by
  have hkept : ∀ marked : List (Char × Bool),
      (unmark (marked.filter (!· == (separator, true)))).count '/' = (unmark marked).count '/' := by
    intro marked
    unfold unmark
    induction marked with
    | nil => rfl
    | cons x marked ih =>
      cases hx : x == (separator, true) with
      | true =>
        rw [List.filter_cons_of_neg (by simp [hx]), ih, beq_iff_eq.mp hx, List.map_cons,
          List.count_cons_of_ne hne]
      | false =>
        rw [List.filter_cons_of_pos (by simp [hx]), List.map_cons, List.count_cons, ih,
          ← List.count_cons, List.map_cons]
  unfold splitTop unmark
  rw [← List.map_flatten, flatten_splitOnP, ← unmark, hkept, unmark_mark]

theorem count_flatMap_trim (pieces : List (List Char)) :
    (pieces.flatMap trim).count '/' = pieces.flatten.count '/' := by
  induction pieces with
  | nil => rfl
  | cons piece pieces ih =>
    rw [List.flatMap_cons, List.count_append, ih, count_trim, List.flatten_cons, List.count_append]

theorem count_splitSelectors (text : String) :
    ((splitSelectors text).flatMap String.toList).count '/' = text.toList.count '/' := by
  have hspelled : (splitSelectors text).flatMap String.toList =
      (splitTop ',' text.toList).flatMap trim := by
    unfold splitSelectors
    rw [List.flatMap_map, List.flatMap_congr fun piece _ => String.toList_ofList, List.flatMap_id',
      List.flatten_filter_not_isEmpty, ← List.flatMap_def]
  rw [hspelled, count_flatMap_trim, count_splitTop ',' (by decide)]

/-- Blocks with the same prelude texts have as many slashes in their preludes. -/
theorem count_of_nested_eq {s t : List Char} {body : Block} (h : nested s body = nested t body) :
    s.count '/' = t.count '/' := by
  unfold nested at h
  dsimp only at h
  split at h
  · split at h
    · obtain ⟨hname, hparams, -, -⟩ := Block.atRule.inj h
      have hs := count_splitAtRule (String.ofList s)
      have ht := count_splitAtRule (String.ofList t)
      rw [String.toList_ofList] at hs ht
      rw [← hs, ← ht, hname, hparams]
    · cases h
  · split at h
    · cases h
    · obtain ⟨hselectors, -, -⟩ := Block.rule.inj h
      have hs := count_splitSelectors (String.ofList s)
      have ht := count_splitSelectors (String.ofList t)
      rw [String.toList_ofList] at hs ht
      rw [← hs, ← ht, hselectors]

theorem count_splitImportant (text : String) :
    (splitImportant text).1.toList.count '/' = text.toList.count '/' := by
  unfold splitImportant
  cases hstrip : stripImportant? text.toList with
  | none => rfl
  | some rest =>
    obtain ⟨-, blanks, tail, htext, hblanks, inside, word, ending, rfl, hinside, hending, hword⟩ :=
      exists_of_stripImportant? hstrip
    have hcount : word.count '/' = 0 := by
      rw [← count_map_toLower, hword]
      decide
    rw [htext, String.toList_ofList]
    simp [count_of_allBlank, hblanks, hinside, hending, hcount]

/-- The fixed texts of a value. -/
def spelled (parts : List ValuePart) : List Char :=
  parts.flatMap fun
    | .text s => s.toList
    | .dynamic _ => []

theorem count_spelled_splitLast (parts : List ValuePart) :
    (spelled (Declaration.splitLast parts).1).count '/' = (spelled parts).count '/' := by
  fun_induction Declaration.splitLast parts with
  | case1 => rfl
  | case2 s rest important hsplit =>
    have hcount := count_splitImportant s
    rw [hsplit] at hcount
    simpa [spelled] using hcount
  | case3 part => rfl
  | case4 part next rest parts important hsplit ih =>
    rw [hsplit] at ih
    unfold spelled at ih ⊢
    rw [List.flatMap_cons, List.count_append, ih, ← List.count_append]
    rfl

theorem spelled_filter_isEmptyText (parts : List ValuePart) :
    spelled (parts.filter (!Declaration.isEmptyText ·)) = spelled parts := by
  unfold spelled
  induction parts with
  | nil => rfl
  | cons part parts ih =>
    cases part with
    | dynamic ref => exact ih
    | text s =>
      cases hempty : s.isEmpty with
      | true =>
        rw [List.filter_cons_of_neg (by simp [Declaration.isEmptyText, hempty]), ih,
          List.flatMap_cons, String.isEmpty_iff.mp hempty]
        rfl
      | false =>
        rw [List.filter_cons_of_pos (by simp [Declaration.isEmptyText, hempty]), List.flatMap_cons,
          ih, List.flatMap_cons]

/-- A declaration has the slashes of its parts. -/
theorem count_spelled_ofParts (property : String) (parts : List ValuePart) :
    (spelled (Declaration.ofParts property parts).value).count '/' = (spelled parts).count '/' := by
  unfold Declaration.ofParts
  dsimp only
  rw [spelled_filter_isEmptyText, count_spelled_splitLast]

/-- Markers add no slashes. -/
theorem count_spelled_valueParts? {refs : List DynamicRef} {value : List Char}
    {parts : List ValuePart} (h : valueParts? refs value = some parts) :
    (spelled parts).count '/' ≤ value.count '/' := by
  fun_induction valueParts? refs value generalizing parts with
  | case1 value hcut =>
    cases h
    cases value with
    | nil => exact Nat.le_refl 0
    | cons c value => simp [spelled]
  | case2 value before after hcut => cases h
  | case3 value before after hcut _ digits rest =>
    rename_i ih
    obtain ⟨-, -, h⟩ := Option.bind_eq_some_iff.mp h
    obtain ⟨ref, -, h⟩ := Option.bind_eq_some_iff.mp h
    obtain ⟨more, hmore, h⟩ := Option.bind_eq_some_iff.mp h
    have hparts : spelled parts = before ++ spelled more := by
      cases before with
      | nil =>
        cases h
        rfl
      | cons c before =>
        cases h
        simp [spelled]
    have hafter : (rest.drop markerClose.length).count '/' ≤ after.count '/' :=
      ((List.drop_sublist _ _).trans (List.dropWhile_sublist _)).count_le '/'
    have hopen : markerOpen.count '/' = 0 := by decide
    rw [hparts, eq_of_cut? hcut, List.count_append, List.count_append, List.count_append, hopen,
      Nat.add_zero]
    exact Nat.add_le_add_left ((ih hmore).trans hafter) _

/-! ## Declarations -/

/-- What the reader of CSS text takes for the text of a property, comments and all. -/
structure IsPropertyText (p : List Char) : Prop where
  fills : FillsPrelude p
  legible : Legible (lex true p)
  chars : ∀ c ∈ uncommented (lex true p), c ≠ ':' ∧ isUnpaired c = true

instance (p : List Char) : Decidable (IsPropertyText p) :=
  decidable_of_iff (FillsPrelude p ∧ Legible (lex true p) ∧
      (uncommented (lex true p)).all (fun c => c != ':' && isUnpaired c) = true)
    ⟨fun h => ⟨h.1, h.2.1, by simpa using h.2.2⟩,
      fun h => ⟨h.fills, h.legible, by simpa using h.chars⟩⟩

/-- The property that a text names: without comments and, unless it is a custom one, in small
letters. -/
def propertyOf (p : List Char) : String :=
  let name := String.ofList (trim (uncommented (lex true p)))
  if isCustom name then name else lower name

theorem trimStart_append_cons {c : Char} (hc : isBlank c = false) (s t : List Char) :
    trimStart (s ++ c :: t) = trimStart s ++ c :: t := by
  unfold trimStart
  rw [List.dropWhile_append, List.dropWhile_cons_of_neg (by simp [hc])]
  split
  · next hempty => rw [List.isEmpty_iff.mp hempty, List.nil_append]
  · rfl

theorem trim_trimStart (s : List Char) : trim (trimStart s) = trim s := by
  unfold trim trimStart
  rw [List.dropWhile_idempotent]

/-- A declaration has the name before the colon and the parts of the collapsed text after it. -/
theorem exists_of_declaration {refs : List DynamicRef} {name text : List Char} {d : Declaration}
    (hname : ∀ c ∈ name, c ≠ ':' ∧ isUnpaired c = true)
    (h : declaration refs (name ++ ':' :: text) = .ok d) :
    collapseChars text ≠ [] ∧ ∃ parts, valueParts? refs (collapseChars text) = some parts ∧
      d = .ofParts (if isCustom (String.ofList (trim name)) then String.ofList (trim name)
        else lower (String.ofList (trim name))) parts := by
  unfold declaration at h
  rw [cutTop?_colon hname] at h
  dsimp only at h
  split at h
  · cases h
  · split at h
    · cases h
    · split at h
      · cases h
      · next hvalue =>
        split at h
        · cases h
        · next parts hparts =>
          cases h
          exact ⟨by simpa using hvalue, parts, hparts, rfl⟩

section Parsed

variable {refs : List DynamicRef} {span : Span} {p v : String} {block : Block}

/-- The declaration that a text with a colon is read to. -/
theorem exists_of_parse_declaration (hp : IsPropertyText p.toList) (hv : Balanced v.toList)
    (h : parse (p ++ ":" ++ v ++ ";") refs span = .ok block) :
    collapseChars (trimEnd (stripComments v.toList)) ≠ [] ∧
      ∃ parts, valueParts? refs (collapseChars (trimEnd (stripComments v.toList))) = some parts ∧
        block = .declaration (.ofParts (propertyOf p.toList) parts) .nil := by
  have htext : (p ++ ":" ++ v ++ ";").toList = p.toList ++ ':' :: v.toList ++ [';'] := by
    simp
  have hcolon : lex true (p.toList ++ ':' :: v.toList) =
      lex true p.toList ++ .plain ':' :: lex true v.toList :=
    lex_append_cons hp.fills.closed (by decide) (by decide) _
  rw [parse_eq_ok_iff, htext] at h
  obtain ⟨d, hd, rfl⟩ := exists_of_read_semicolon (hp.fills.append_colon hv.fillsPrelude)
    ⟨.plain ':', by simp [hcolon], rfl⟩ h
  have hstrip : stripComments (p.toList ++ ':' :: v.toList) =
      uncommented (lex true p.toList) ++ ':' :: stripComments v.toList := by
    rw [stripComments_append_of_legible hp.fills.closed hp.legible (by simp)]
    rfl
  rw [hstrip, trim, trimStart_append_cons (by decide), trimEnd_append_cons (by decide)] at hd
  have hchars : ∀ c ∈ trimStart (uncommented (lex true p.toList)), c ≠ ':' ∧ isUnpaired c = true :=
    fun c hc => hp.chars c ((List.dropWhile_sublist _).subset hc)
  obtain ⟨hvalue, parts, hparts, rfl⟩ := exists_of_declaration hchars hd
  rw [trim_trimStart]
  exact ⟨hvalue, parts, hparts, rfl⟩

/-- The blanks at the end of a value make no difference to what it declares. -/
def EndBlanksIgnored (v : String) : Prop :=
  splitImportant (collapse (trimmedEnd v)) = splitImportant (collapse v)

instance (v : String) : Decidable (EndBlanksIgnored v) :=
  inferInstanceAs (Decidable (_ = _))

/-- What a text declares is what is left of it and its importance. -/
theorem ofParts_text_eq_iff {property text other : String} :
    Declaration.ofParts property [.text text] = .ofParts property [.text other] ↔
      splitImportant text = splitImportant other := by
  have hspelled : ∀ s : String, spelled ([.text s].filter (!Declaration.isEmptyText ·)) = s.toList := by
    intro s
    rw [spelled_filter_isEmptyText]
    exact List.append_nil _
  constructor
  · intro h
    have hvalue := congrArg (fun d => spelled d.value) h
    have himportant := congrArg Declaration.important h
    dsimp only [Declaration.ofParts, Declaration.splitLast] at hvalue himportant
    rw [hspelled, hspelled] at hvalue
    exact Prod.ext (String.toList_injective hvalue) himportant
  · intro h
    unfold Declaration.ofParts Declaration.splitLast
    rw [h]

/-- A declaration has the collapsed text of its value just if no comment seems to open in a quoted text
or after a backslash, and the blanks at its end make no difference. -/
theorem declaration_eq_iff (hp : IsPropertyText p.toList) (hv : Balanced v.toList)
    (hmarker : hasMarker v.toList = false) (h : parse (p ++ ":" ++ v ++ ";") refs span = .ok block) :
    block = .declaration (.ofParts (propertyOf p.toList) [.text (collapse v)]) .nil ↔
      Legible (lex true v.toList) ∧ EndBlanksIgnored v := by
  obtain ⟨hvalue, parts, hparts, rfl⟩ := exists_of_parse_declaration hp hv h
  have hlegible := legible_iff_noComment hv.closed hv.isComment_eq_false
  -- Without a comment to remove, the parts are the collapsed text without the blanks at its end.
  have hkept : NoComment v.toList → parts = [.text (collapse (trimmedEnd v))] := by
    intro hcomment
    rw [stripComments_eq_self hcomment] at hvalue hparts
    rw [valueParts?_of_noMarker hvalue (hasMarker_collapseChars_trimEnd hmarker)] at hparts
    cases hparts
    rw [collapse, trimmedEnd, String.toList_ofList]
  have hcomment : (spelled parts).count '/' = (spelled [.text (collapse v)]).count '/' →
      NoComment v.toList := by
    intro hcount
    by_contra hcomment
    have hlost := count_stripComments_lt hcomment
    have hfew := count_spelled_valueParts? hparts
    have hall : (spelled [.text (collapse v)]).count '/' = v.toList.count '/' := by
      rw [← count_collapseChars v.toList]
      simp [spelled, collapse]
    rw [count_collapseChars, count_trimEnd] at hfew
    omega
  constructor
  · intro heq
    have hd := (Block.declaration.inj heq).1
    have hcount := congrArg (fun d => (spelled d.value).count '/') hd
    rw [count_spelled_ofParts, count_spelled_ofParts] at hcount
    have hnone := hcomment hcount
    rw [hkept hnone, ofParts_text_eq_iff] at hd
    exact ⟨hlegible.mpr hnone, hd⟩
  · rintro ⟨hquoted, hend⟩
    rw [hkept (hlegible.mp hquoted), ofParts_text_eq_iff.mpr hend]

/-- The block that a text with a prelude and braces is read to. -/
theorem eq_nested_of_parse {s inner : String} {body : Block} (hs : FillsPrelude s.toList)
    (hinner : parse inner refs span = .ok body) (hend : inner.toList.getLast? ≠ some '\\')
    (h : parse (s ++ "\x7b" ++ inner ++ "\x7d") refs span = .ok block) :
    block = nested (trim (stripComments s.toList)) body := by
  have htext : (s ++ "\x7b" ++ inner ++ "\x7d").toList =
      s.toList ++ '\x7b' :: (inner.toList ++ ['\x7d']) := by
    simp
  rw [parse_eq_ok_iff] at hinner h
  rw [htext] at h
  exact eq_nested_of_read hs hinner hend h

end Parsed

/-- Without comments, a prelude stays as it is just if no comment seems to open in a quoted text or
after a backslash. -/
theorem nested_stripComments_eq_iff {s : List Char} (hs : Balanced s) {body : Block} :
    nested (trim (stripComments s)) body = nested (trim s) body ↔ Legible (lex true s) := by
  rw [legible_iff_noComment hs.closed hs.isComment_eq_false]
  constructor
  · intro h
    by_contra hcomment
    have hcount := count_of_nested_eq h
    rw [count_trim, count_trim] at hcount
    exact absurd hcount (Nat.ne_of_lt (count_stripComments_lt hcomment))
  · intro hcomment
    rw [stripComments_eq_self hcomment]

/-- **Removed comments.**  The two readers of comments agree on a closed text just if no comment seems
to open in a quoted text or after a backslash (`Legible`).  A declaration that is read, with no comment
outside quotes and no marker in its value, has the collapsed text of its value just if the value is
legible and the blanks at its end make no difference, as they do only after a quote that is escaped
outside quotes.  A block that is read has its prelude without comments if the prelude is legible, and,
where there are no comments, only then. -/
theorem parse_keeps_quoted_iff (refs : List DynamicRef) (span : Span) :
    (∀ s : List Char, unmark (commentMarks s) = s ∧
      stripComments s = unmark ((commentMarks s).filter (!·.2)) ∧
      (Closed true s → (commentMarks s = (lex true s).flatMap marks ↔ Legible (lex true s)))) ∧
    (∀ (p v : String) (block : Block), IsPropertyText p.toList → Balanced v.toList →
      hasMarker v.toList = false → parse (p ++ ":" ++ v ++ ";") refs span = .ok block →
      (block = .declaration (.ofParts (propertyOf p.toList) [.text (collapse v)]) .nil ↔
        Legible (lex true v.toList) ∧ EndBlanksIgnored v) ∧
      (NoEscapedQuote v.toList → EndBlanksIgnored v)) ∧
    ∀ (s inner : String) (body block : Block), FillsPrelude s.toList →
      parse inner refs span = .ok body → inner.toList.getLast? ≠ some '\\' →
      parse (s ++ "\x7b" ++ inner ++ "\x7d") refs span = .ok block →
      (Legible (lex true s.toList) → block = nested (trim (uncommented (lex true s.toList))) body) ∧
      (Balanced s.toList → (block = nested (trim s.toList) body ↔ Legible (lex true s.toList))) := by
  refine ⟨fun s => ⟨unmark_commentMarks s, stripComments_eq s, commentMarks_eq_iff⟩, ?_, ?_⟩
  · intro p v block hp hv hmarker h
    refine ⟨declaration_eq_iff hp hv hmarker h, fun hescape => ?_⟩
    unfold EndBlanksIgnored
    rw [collapse_trimmedEnd hv hescape]
  · intro s inner body block hs hinner hend h
    obtain rfl := eq_nested_of_parse hs hinner hend h
    refine ⟨fun hlegible => ?_, fun hbalanced => nested_stripComments_eq_iff hbalanced⟩
    rw [stripComments_of_legible hs.closed hlegible]

/-- A property with a comment, whose value has quotes, an escape and `!important`; and rules whose
selectors have a comment and a quoted text. -/
theorem parse_keeps_quoted_iff_title :
    let v := "  \"a /\"  \\* !important "
    let selector := " a[title=\"*/\"] /* x */ > b "
    let top : Block := .declaration ⟨"top", [.text "0"], false⟩ .nil
    parse ("Content/*:*/" ++ ":" ++ v ++ ";") [] .none =
        .ok (.declaration (.ofParts "content" [.text (collapse v)]) .nil) ∧
      parse (selector ++ "\x7b" ++ "top:0" ++ "\x7d") [] .none =
        .ok (nested (trim (uncommented (lex true selector.toList))) top) ∧
      parse ("a[title=\"/\"]" ++ "\x7b" ++ "top:0" ++ "\x7d") [] .none =
        .ok (nested (trim "a[title=\"/\"]".toList) top) ∧
      commentMarks selector.toList = (lex true selector.toList).flatMap marks := by
  intro v selector top
  obtain ⟨hmarks, hdeclared, hnested⟩ := parse_keeps_quoted_iff [] .none
  have hv : parse ("Content/*:*/" ++ ":" ++ v ++ ";") [] .none =
      .ok (.declaration ⟨"content", [.text "\"a /\" \\*"], true⟩ .nil) := by
    decide +kernel
  have hrule : parse (selector ++ "\x7b" ++ "top:0" ++ "\x7d") [] .none =
      .ok (.rule ["a[title=\"*/\"]  > b"] top .nil) := by
    decide +kernel
  have hplain : parse ("a[title=\"/\"]" ++ "\x7b" ++ "top:0" ++ "\x7d") [] .none =
      .ok (.rule ["a[title=\"/\"]"] top .nil) := by
    decide +kernel
  have htop : parse "top:0" [] .none = .ok top := by decide +kernel
  have hlegible : Legible (lex true selector.toList) := by decide +kernel
  have hdeclaration := hdeclared "Content/*:*/" v _ (by decide +kernel) (by decide +kernel)
    (by decide +kernel) hv
  have hproperty : propertyOf "Content/*:*/".toList = "content" := by decide +kernel
  refine ⟨?_, ?_, ?_, (hmarks selector.toList).2.2 (by decide +kernel) |>.mpr hlegible⟩
  · rw [hv, hdeclaration.1.mpr ⟨by decide +kernel, hdeclaration.2 (by decide +kernel)⟩, hproperty]
  · rw [hrule]
    exact congrArg _ ((hnested selector "top:0" top _ (by decide +kernel) htop (by decide) hrule).1
      hlegible)
  · rw [hplain]
    exact congrArg _ (((hnested "a[title=\"/\"]" "top:0" top _ (by decide +kernel) htop (by decide)
      hplain).2 (by decide +kernel)).mpr (by decide +kernel))

/-- A comment inside quotes is removed from a value. -/
theorem comment_in_quotes_removed :
    IsPropertyText "content".toList ∧ Balanced " \"/* x */\"".toList ∧
      NoEscapedQuote " \"/* x */\"".toList ∧ hasMarker " \"/* x */\"".toList = false ∧
      parse ("content" ++ ":" ++ " \"/* x */\"" ++ ";") [] .none =
        .ok (.declaration ⟨"content", [.text "\"\""], false⟩ .nil) ∧
      Declaration.ofParts (propertyOf "content".toList) [.text (collapse " \"/* x */\"")] =
        ⟨"content", [.text "\"/* x */\""], false⟩ := by
  decide +kernel

end AtomicStyle.CssText
