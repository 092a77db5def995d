import AtomicStyle.Proofs.Cursor

/-!
# Reading blocks with a cursor

`CssText.parse` reads a text lexeme by lexeme and cannot go wrong.  Here the same text is read with a
cursor, and every piece of it is cut out at offsets: preludes, the two halves of declarations, markers
in values, the texts before the places of faults.  Nothing is presupposed about these offsets; where a
cut fails, or a loop or the recursion into blocks does not end, there is no result.

There always is one, and it is that of `CssText.parse`.  Every item takes some of the text and a block
inside leaves less, so the proof is by induction on the text that is left.

Results:
1. `Reading.run_begin`, `Reading.run_declare`, `Reading.run_open`: what reading does with an item.
2. `checkSelectors_matches`, `declareAt_matches`: the cursor does the same.
3. `ReadsBelow.item`, `blockAt_matches`: one item, and all items of a block.
4. `parseAt?_eq_parse`: the whole text.
-/

namespace AtomicStyle.CssText

open AtomicStyle.Css AtomicStyle.Text

/-! ## The cursor -/

/-- Checks the prelude of a block. -/
def checkSelectors (prelude : List Char) (start : Nat) : Scan Unit :=
  if prelude.isEmpty then throw (.missingSelector, start)
  else if hasMarker prelude then throw (.misplacedInterpolation, start)
  else pure ()

/-- The declaration of a prelude that began at `start`. -/
def declareAt (css : CssText) (prelude : List Char) (start : Nat) : Scan Declaration :=
  if prelude.head? == some '@' then throw (.unsupportedAtRule (String.ofList prelude), start)
  else (css.declarationAt prelude).adapt (·, start)

/-- Reads the items of a block after those in `items`, to the end of the text, or, inside a block
whose brace stands at `opened`, to the end of this block. -/
def blockAt (css : CssText) (isNested : Bool) (opened : Nat) (items : Block) (pos : Nat) :
    Scan (Block × Nat) := do
  let start ← css.skipTrivia pos
  match byteAt? css.chars start with
  | none => if isNested then throw (.unclosedBlock, opened) else return (items, start)
  | some byte =>
    if byte == '\x7d' then
      if isNested then return (items, start + 1) else throw (.unexpected byte, start)
    else if byte == ';' then css |>.blockAt isNested opened items (start + 1)
    else
      let (terminator, stop, prelude) ← css.preludeAt start
      if terminator = .opening then
        checkSelectors prelude start
        let (body, next) ← css |>.blockAt true stop .nil (stop + 1)
        let item ← nestedAt? prelude body
        css |>.blockAt isNested opened (items ++ item) next
      else
        let d ← css.declareAt prelude start
        css |>.blockAt isNested opened (items ++ .declaration d .nil)
          (if terminator = .semicolon then stop + 1 else stop)
partial_fixpoint

/-- The block of a text at a place of a unit, or its first fault; nothing, if a cut fails or reading
does not end. -/
def parseAt? (text : String) (refs : List DynamicRef) (span : Span) :
    Option (Except CompileError Block) := do
  match ← (blockAt ⟨text.toList, refs⟩ false 0 .nil 0).run with
  | .ok (block, _) => return .ok block
  | .error (fault, offset) =>
    let (line, column) ← lineColumnAt? text.toList offset
    return .error (.malformedCss fault span line column)

section

variable {refs : List DynamicRef} {text before rest : List Char} {read : Except Fault Block}
  {css : CssText} {items : Block} {around : List OpenBlock} {c : Char}

/-! ## Items -/

/-- A lexeme that can begin a prelude is read as if the prelude had begun before it. -/
theorem Reading.take_begin {place : Nat} {lexeme : Lexeme} (hcomment : ∀ body, lexeme ≠ .comment body)
    (hplain : ∀ c, lexeme = .plain c → isCssBlank c = false ∧ c ≠ ';' ∧ c ≠ '\x7d') :
    take refs ⟨place, items, around, none⟩ lexeme =
      take refs ⟨place, items, around, some ⟨place, [], 0⟩⟩ lexeme := by
  cases lexeme with
  | comment body => exact absurd rfl (hcomment body)
  | plain c =>
    obtain ⟨hblank, hsemicolon, hbrace⟩ := hplain c rfl
    simp only [take, hblank, beq_iff_eq, hsemicolon, hbrace, Bool.false_or, if_false]
    rfl
  | _ => rfl

theorem Reading.run_begin {place : Nat} (hhead : rest.head? = some c) (hrest : NoTrivia rest)
    (hsemicolon : c ≠ ';') (hbrace : c ≠ '\x7d') :
    run refs ⟨place, items, around, none⟩ rest =
      run refs ⟨place, items, around, some ⟨place, [], 0⟩⟩ rest := by
  have hspell := flatMap_text_lex true rest
  cases hlex : lex true rest with
  | nil =>
    rw [hlex] at hspell
    rw [← hspell] at hhead
    cases hhead
  | cons lexeme later =>
    rw [hlex, List.flatMap_cons] at hspell
    have htake : take refs ⟨place, items, around, none⟩ lexeme =
        take refs ⟨place, items, around, some ⟨place, [], 0⟩⟩ lexeme := by
      refine take_begin ?_ ?_
      · rintro body rfl
        exact hrest.comment ⟨_, hspell⟩
      · rintro d rfl
        have hd : d = c := by
          rw [← hspell] at hhead
          exact Option.some.inj hhead
        exact hd ▸ ⟨hrest.blank c hhead, hsemicolon, hbrace⟩
    rw [run, run, hlex, List.foldlM_cons, List.foldlM_cons, step, step, htake]

/-- The declaration of a prelude that has ended. -/
def Prelude.declared (refs : List DynamicRef) (p : Prelude) : Except Fault Declaration :=
  let text := trim (stripComments p.text)
  if text.head? == some '@' then .error (.unsupportedAtRule (String.ofList text), p.start)
  else (declaration refs text).mapError (·, p.start)

theorem Reading.declare_eq_bind (reading : Reading) (p : Prelude) :
    reading.declare refs p = p.declared refs >>= fun d =>
      .ok { reading with items := reading.items ++ .declaration d .nil, prelude := none } := by
  unfold declare Prelude.declared
  dsimp only
  split
  · rfl
  · cases declaration refs (trim (stripComments p.text)) <;> rfl

theorem lex_cons_of_plain (hquote : isQuote c = false) (hc : c ∉ ['\\', '/']) :
    lex true (c :: rest) = .plain c :: lex true rest := by
  simp only [List.mem_cons, List.not_mem_nil, or_false, not_or] at hc
  exact lexFrom_plain true hquote hc.1 fun h => absurd h hc.2

theorem Reading.run_declare {place start : Nat} {inside : List Char} {terminator : Terminator}
    (hends : terminator.Ends rest) (hne : terminator ≠ .opening) :
    run refs ⟨place, items, around, some ⟨start, inside, 0⟩⟩ rest =
      Prelude.declared refs ⟨start, inside, 0⟩ >>= fun d =>
        run refs ⟨place, items ++ .declaration d .nil, around, none⟩ rest := by
  cases terminator with
  | opening => exact absurd rfl hne
  | semicolon =>
    obtain ⟨after, rfl⟩ := List.head?_eq_some_iff.mp hends
    have hlex := @lex_cons_of_plain after ';' (by decide) (by decide)
    have htake : take refs ⟨place, items, around, some ⟨start, inside, 0⟩⟩ (.plain ';') =
        declare refs ⟨place, items, around, some ⟨start, inside, 0⟩⟩ ⟨start, inside, 0⟩ := rfl
    rw [run_eq_take_bind _ hlex, htake, declare_eq_bind]
    cases Prelude.declared refs ⟨start, inside, 0⟩ with
    | error fault => rfl
    | ok d =>
      exact (run_eq_take_bind ⟨place, items ++ .declaration d .nil, around, none⟩ hlex).symm
  | closing =>
    obtain ⟨after, rfl⟩ := List.head?_eq_some_iff.mp hends
    have hlex := @lex_cons_of_plain after '\x7d' (by decide) (by decide)
    have htake : take refs ⟨place, items, around, some ⟨start, inside, 0⟩⟩ (.plain '\x7d') =
        declare refs ⟨place, items, around, some ⟨start, inside, 0⟩⟩ ⟨start, inside, 0⟩ >>=
          closeBlock := rfl
    rw [run_eq_take_bind _ hlex, htake, declare_eq_bind]
    cases Prelude.declared refs ⟨start, inside, 0⟩ with
    | error fault => rfl
    | ok d =>
      exact (run_eq_take_bind ⟨place, items ++ .declaration d .nil, around, none⟩ hlex).symm
  | textEnd =>
    obtain rfl := hends
    have hfinish : finish refs ⟨place, items, around, some ⟨start, inside, 0⟩⟩ =
        declare refs ⟨place, items, around, some ⟨start, inside, 0⟩⟩ ⟨start, inside, 0⟩ >>=
          fun reading => finish refs { reading with prelude := none } := rfl
    rw [run_nil, hfinish, declare_eq_bind]
    cases Prelude.declared refs ⟨start, inside, 0⟩ <;> rfl

/-- A brace opens a block inside, if its prelude can be that of a block. -/
theorem Reading.run_open {start : Nat} {inside : List Char} :
    run refs ⟨before.length, items, around, some ⟨start, inside, 0⟩⟩ ('\x7b' :: rest) =
      if (trim (stripComments inside)).isEmpty then .error (.missingSelector, start)
      else if hasMarker (trim (stripComments inside)) then .error (.misplacedInterpolation, start)
      else run refs ⟨(before ++ ['\x7b']).length, .nil,
        ⟨trim (stripComments inside), before.length, items⟩ :: around, none⟩ rest := by
  have hlex := @lex_cons_of_plain rest '\x7b' (by decide) (by decide)
  have htake : take refs ⟨before.length, items, around, some ⟨start, inside, 0⟩⟩ (.plain '\x7b') =
      openBlock ⟨before.length, items, around, some ⟨start, inside, 0⟩⟩ ⟨start, inside, 0⟩ := rfl
  rw [run_eq_take_bind _ hlex, htake, openBlock]
  dsimp only
  split
  · rfl
  · split
    · rfl
    · rw [List.length_append]
      rfl

theorem checkSelectors_matches {offset start : Nat} (hplace : Locates text offset start)
    {inside : List Char}
    (hread : read =
      Reading.run refs ⟨before.length, items, around, some ⟨start, inside, 0⟩⟩ ('\x7b' :: rest)) :
    Matches text read (fun _ => read = Reading.run refs ⟨(before ++ ['\x7b']).length, .nil,
        ⟨trim (stripComments inside), before.length, items⟩ :: around, none⟩ rest)
      (checkSelectors (trim (stripComments inside)) offset) := by
  rw [Reading.run_open] at hread
  unfold checkSelectors
  split
  · next hempty =>
    rw [if_pos hempty] at hread
    exact .fault hplace hread
  · next hempty =>
    rw [if_neg hempty] at hread
    split
    · next hmarker =>
      rw [if_pos hmarker] at hread
      exact .fault hplace hread
    · next hmarker =>
      rw [if_neg hmarker] at hread
      exact .result hread

theorem declareAt_matches {offset place start : Nat} (hplace : Locates text offset start)
    {inside : List Char} {terminator : Terminator} (hends : terminator.Ends rest)
    (hne : terminator ≠ .opening)
    (hread : read = Reading.run css.refs ⟨place, items, around, some ⟨start, inside, 0⟩⟩ rest) :
    Matches text read
      (fun d => read = Reading.run css.refs ⟨place, items ++ .declaration d .nil, around, none⟩ rest)
      (css.declareAt (trim (stripComments inside)) offset) := by
  rw [Reading.run_declare hends hne] at hread
  unfold declareAt
  unfold Prelude.declared at hread
  dsimp only at hread
  split
  · next hat =>
    rw [if_pos hat] at hread
    exact .fault hplace hread
  · next hat =>
    rw [if_neg hat] at hread
    rw [declarationAt_eq]
    cases hdeclaration : declaration css.refs (trim (stripComments inside)) with
    | error fault =>
      rw [hdeclaration] at hread
      exact .fault hplace hread
    | ok d =>
      rw [hdeclaration] at hread
      exact .result hread

/-! ## Blocks -/

/-- The cursor has read the last block of the text, or a block inside another one; reading goes on
after it, with less text left. -/
def BlockRead (refs : List DynamicRef) (read : Except Fault Block) (text rest : List Char) :
    List OpenBlock → Block × Nat → Prop
  | [], last => read = .ok last.1
  | opened :: outer, last => ∃ before after, text = before ++ after ∧ after.length < rest.length ∧
      last.2 = byteLength before ∧
      read = Reading.run refs
        ⟨before.length, opened.before ++ nested opened.prelude last.1, outer, none⟩ after

theorem BlockRead.of_le {s : List Char} {last : Block × Nat}
    (h : BlockRead refs read text s around last) (hs : s.length ≤ rest.length) :
    BlockRead refs read text rest around last := by
  cases around with
  | nil => exact h
  | cons opened outer =>
    obtain ⟨before, after, htext, hshort, hpos, hrun⟩ := h
    exact ⟨before, after, htext, Nat.lt_of_lt_of_le hshort hs, hpos, hrun⟩

/-- From every place with less than `n` characters left, the items of a block are read. -/
def ReadsBelow (css : CssText) (n : Nat) : Prop :=
  ∀ {before rest : List Char} {read : Except Fault Block} {items : Block} {around : List OpenBlock}
    {opened : Nat}, rest.length < n → css.chars = before ++ rest →
    read = Reading.run css.refs ⟨before.length, items, around, none⟩ rest →
    (∀ block ∈ around.head?, Locates css.chars opened block.place) →
    Matches css.chars read (BlockRead css.refs read css.chars rest around)
      (css.blockAt (!around.isEmpty) opened items (byteLength before))

variable {opened : Nat} {s : List Char}

/-- Reading on from a later place of the same block. -/
theorem ReadsBelow.later (h : ReadsBelow css s.length) (hrest : rest.length < s.length)
    (htext : css.chars = before ++ rest)
    (hread : read = Reading.run css.refs ⟨before.length, items, around, none⟩ rest)
    (hopened : ∀ block ∈ around.head?, Locates css.chars opened block.place) :
    Matches css.chars read (BlockRead css.refs read css.chars s around)
      (css.blockAt (!around.isEmpty) opened items (byteLength before)) :=
  (h hrest htext hread hopened).mono fun _ hlast => hlast.of_le (Nat.le_of_lt hrest)

/-- An item that is a block is read with what follows it. -/
theorem ReadsBelow.block (h : ReadsBelow css s.length) (hrest : rest.length < s.length)
    (htext : css.chars = before ++ '\x7b' :: rest)
    (hopened : ∀ block ∈ around.head?, Locates css.chars opened block.place) {prelude : List Char}
    (hread : read = Reading.run css.refs ⟨(before ++ ['\x7b']).length, .nil,
      ⟨prelude, before.length, items⟩ :: around, none⟩ rest) :
    Matches css.chars read (BlockRead css.refs read css.chars s around)
      (css.blockAt true (byteLength before) .nil (byteLength before + 1) >>= fun last =>
        liftM (nestedAt? prelude last.1) >>= fun item =>
          css.blockAt (!around.isEmpty) opened (items ++ item) last.2) := by
  have hbody : css.chars = before ++ ['\x7b'] ++ rest := by rw [htext, List.append_cons]
  have hbrace : Locates css.chars (byteLength before) before.length := htext ▸ locates_append before _
  have hinner := h hrest hbody hread (by rintro _ ⟨⟩; exact hbrace)
  rw [byteLength_concat (by decide)] at hinner
  refine hinner.bind ?_
  rintro ⟨body, next⟩ ⟨later, after, hafter, hless, rfl, hrun⟩
  simp only [nestedAt?_eq, Checked.lift_some, pure_bind]
  exact h.later (Nat.lt_trans hless hrest) hafter hrun hopened

/-- An item that is a declaration is read with what follows it. -/
theorem ReadsBelow.declaration (h : ReadsBelow css s.length) (htext : css.chars = before ++ rest)
    (hopened : ∀ block ∈ around.head?, Locates css.chars opened block.place) {terminator : Terminator}
    (hends : terminator.Ends rest)
    (hread : read = Reading.run css.refs ⟨before.length, items, around, none⟩ rest)
    (hrest : rest.length < s.length) :
    Matches css.chars read (BlockRead css.refs read css.chars s around)
      (css.blockAt (!around.isEmpty) opened items
        (if terminator = .semicolon then byteLength before + 1 else byteLength before)) := by
  split
  · next hterminator =>
    subst hterminator
    obtain ⟨rest, rfl⟩ := List.head?_eq_some_iff.mp hends
    have hlex := @lex_cons_of_plain rest ';' (by decide) (by decide)
    have hafter : css.chars = before ++ [';'] ++ rest := by rw [htext, List.append_cons]
    rw [← byteLength_concat (by decide : ¬ IsWide ';')]
    refine h.later ?_ hafter (hread.trans (Reading.run_of_ok hlex rfl)) hopened
    rw [List.length_cons] at hrest
    omega
  · exact h.later hrest htext hread hopened

/-- An item is read with what follows it. -/
theorem ReadsBelow.item (h : ReadsBelow css s.length) (hrest : (c :: rest).length ≤ s.length)
    (htext : css.chars = before ++ c :: rest) (hsemicolon : c ≠ ';') (hbrace : c ≠ '\x7d')
    (hopened : ∀ block ∈ around.head?, Locates css.chars opened block.place)
    {last : Terminator × Nat × List Char}
    (hlast : PreludeRead css.refs items around read before (c :: rest) last) :
    Matches css.chars read (BlockRead css.refs read css.chars s around)
      (if last.1 = .opening then
        checkSelectors last.2.2 (byteLength before) >>= fun _ =>
          css.blockAt true last.2.1 .nil (last.2.1 + 1) >>= fun inner =>
            liftM (nestedAt? last.2.2 inner.1) >>= fun item =>
              css.blockAt (!around.isEmpty) opened (items ++ item) inner.2
      else
        css.declareAt last.2.2 (byteLength before) >>= fun d =>
          css.blockAt (!around.isEmpty) opened (items ++ .declaration d .nil)
            (if last.1 = .semicolon then last.2.1 + 1 else last.2.1)) := by
  obtain ⟨terminator, stop, prelude⟩ := last
  obtain ⟨inside, after, hsplit, hends, hstop, hrun⟩ := hlast
  cases hstop
  have hstart : Locates css.chars (byteLength before) before.length := htext ▸ locates_append before _
  have hafter : css.chars = before ++ inside ++ after := by rw [htext, hsplit, List.append_assoc]
  have hlength := congrArg List.length hsplit
  rw [List.length_append] at hlength
  split
  · next hopening =>
    obtain rfl : terminator = .opening := hopening
    obtain ⟨body, rfl⟩ := List.head?_eq_some_iff.mp hends
    simp only [List.length_cons] at hlength hrest
    refine (checkSelectors_matches hstart hrun).bind fun _ hbody => ?_
    exact h.block (by omega) hafter hopened hbody
  · next hopening =>
    refine (declareAt_matches hstart hends hopening hrun).bind fun d hd => ?_
    refine h.declaration hafter hopened hends hd ?_
    -- what ends an item does not begin it, so the item is not empty
    have hinside : inside ≠ [] := by
      rintro rfl
      rw [List.nil_append] at hsplit
      subst hsplit
      cases terminator with
      | opening => exact hopening rfl
      | semicolon => exact hsemicolon (Option.some.inj hends)
      | closing => exact hbrace (Option.some.inj hends)
      | textEnd => cases hends
    have := List.length_pos_iff.mpr hinside
    omega

theorem blockAt_matches (htext : css.chars = before ++ rest)
    (hread : read = Reading.run css.refs ⟨before.length, items, around, none⟩ rest)
    (hopened : ∀ block ∈ around.head?, Locates css.chars opened block.place) :
    Matches css.chars read (BlockRead css.refs read css.chars rest around)
      (css.blockAt (!around.isEmpty) opened items (byteLength before)) := by
  induction hn : rest.length using Nat.strong_induction_on
    generalizing before rest read items around opened with
  | _ n ih =>
    subst hn
    have hbelow : ReadsBelow css rest.length :=
      fun hless htext hread hopened => ih _ hless htext hread hopened rfl
    rw [blockAt]
    refine (skipTrivia_matches htext hread).bind ?_
    rintro _ ⟨gap, after, hrest, hafter, rfl, hrun⟩
    have hlength := congrArg List.length hrest
    rw [List.length_append] at hlength
    rw [hrest, ← List.append_assoc] at htext
    generalize before ++ gap = here at htext hrun ⊢
    cases after with
    | nil =>
      have hend : byteAt? css.chars (byteLength here) = none :=
        byteAt?_of_le (by rw [htext, List.append_nil])
      simp only [hend]
      cases around with
      | nil => exact .result hrun
      | cons block outer => exact .fault (hopened block rfl) hrun
    | cons c after =>
      obtain ⟨byte, hbyte, hascii⟩ := exists_byteAt? htext
      have hnext : css.chars = here ++ [c] ++ after := by rw [htext, List.append_cons]
      have hless : after.length < rest.length := by
        rw [hlength, List.length_cons]
        omega
      simp only [hbyte, beq_iff_eq, hascii '\x7d' (by decide), hascii ';' (by decide)]
      split
      · next hbrace =>
        subst hbrace
        have hlex := @lex_cons_of_plain after '\x7d' (by decide) (by decide)
        obtain rfl := (hascii '\x7d' (by decide)).mpr rfl
        cases around with
        | nil =>
          exact .fault (htext ▸ locates_append here _) (hrun.trans (Reading.run_of_error hlex rfl))
        | cons block outer =>
          exact .result ⟨here ++ ['\x7d'], after, hnext, hless,
            (byteLength_concat (by decide) here).symm, hrun.trans (Reading.run_of_ok hlex rfl)⟩
      · next hbrace =>
        split
        · next hsemicolon =>
          subst hsemicolon
          have hlex := @lex_cons_of_plain after ';' (by decide) (by decide)
          rw [← byteLength_concat (by decide : ¬ IsWide ';')]
          exact hbelow.later hless hnext (hrun.trans (Reading.run_of_ok hlex rfl)) hopened
        · next hsemicolon =>
          have hbegin := hrun.trans (Reading.run_begin rfl hafter hsemicolon hbrace)
          refine (preludeAt_matches htext hbegin).bind fun last hlast => ?_
          exact hbelow.item (by omega) htext hsemicolon hbrace hopened hlast

end

/-! ## The whole text -/

/-- A text is read with a cursor to the same end as without: a block, or malformed text. -/
theorem parseAt?_eq_parse (text : String) (refs : List DynamicRef) (span : Span) :
    parseAt? text refs span = some (parse text refs span) ∧
      ((∃ block, parse text refs span = .ok block) ∨
        ∃ fault line column, parse text refs span = .error (.malformedCss fault span line column)) := by
  have hblock : Matches text.toList (CssText.read refs text.toList)
      (BlockRead refs (CssText.read refs text.toList) text.toList text.toList [])
      (blockAt ⟨text.toList, refs⟩ false 0 .nil 0) :=
    @blockAt_matches [] text.toList _ ⟨text.toList, refs⟩ .nil [] 0 rfl rfl (by simp)
  unfold parseAt? parse
  generalize CssText.read refs text.toList = result at hblock ⊢
  generalize blockAt ⟨text.toList, refs⟩ false 0 .nil 0 = scan at hblock ⊢
  cases hblock with
  | fault hplace hread =>
    subst hread
    refine ⟨?_, Or.inr ⟨_, _, _, rfl⟩⟩
    have hline := lineColumnAt?_eq hplace
    change lineColumnAt? text.toList _ >>= _ = _
    rw [hline]
    rfl
  | result h =>
    obtain rfl := h
    exact ⟨rfl, Or.inl ⟨_, rfl⟩⟩

end AtomicStyle.CssText
