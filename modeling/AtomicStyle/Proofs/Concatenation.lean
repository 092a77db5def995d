import AtomicStyle.Proofs.Declaring

/-!
# CSS texts in a row

The reader of CSS text looks back at nothing but the items it has read, the blocks that are open and
the prelude that has begun.  So a text that is read alone is read in the same way after other text and
inside other blocks, and its items are added to those that are there.

Results:
1. `Reading.step_after`, `Reading.foldlM_after`: one lexeme, and a row of them, further on.
2. `Reading.foldlM_semicolon`, `Reading.foldlM_closingBrace`: what a text adds that is read alone.
3. `parse_append_semicolon`: the block of two texts with a semicolon between them.
-/

namespace AtomicStyle.CssText

open AtomicStyle.Css AtomicStyle.Text

namespace Reading

variable {refs : List DynamicRef} {base reading next : Reading}

/-! ## Reading further on -/

/-- The items that stand before those of the innermost block: the items that were read already, if no
block was opened since. -/
def lead (items : Block) : List OpenBlock → Block
  | [] => items
  | _ :: _ => .nil

/-- Blocks that were opened after another reading. -/
def enclose (base : Reading) : List OpenBlock → List OpenBlock
  | [] => base.around
  | block :: around =>
    { block with
      place := base.place + block.place
      before := lead base.items around ++ block.before } :: enclose base around

/-- The prelude that begins as many characters further on as the place says. -/
def shift (place : Nat) (p : Prelude) : Prelude :=
  { p with start := place + p.start }

/-- What has been read from the start, read after another reading instead. -/
def after (base reading : Reading) : Reading where
  place := base.place + reading.place
  items := lead base.items reading.around ++ reading.items
  around := enclose base reading.around
  prelude := reading.prelude.map (shift base.place)

theorem after_start (h : base.prelude = none) : base.after {} = base := by
  obtain ⟨place, items, around, prelude⟩ := base
  cases h
  simp [after, lead, enclose]

/-- A declaration ends the prelude and adds an item. -/
theorem exists_of_declare {p : Prelude} (h : reading.declare refs p = .ok next) :
    ∃ d, declaration refs (trim (stripComments p.text)) = .ok d ∧
      next = { reading with items := reading.items ++ .declaration d .nil, prelude := none } := by
  unfold declare at h
  dsimp only at h
  split at h
  · cases h
  · split at h
    · cases h
    · next d hd =>
      cases h
      exact ⟨d, hd, rfl⟩

theorem declare_after {p : Prelude} (h : reading.declare refs p = .ok next) :
    (base.after reading).declare refs (shift base.place p) = .ok (base.after next) := by
  unfold declare at h ⊢
  dsimp only [shift] at h ⊢
  split at h
  · cases h
  · next hat =>
    rw [if_neg hat]
    split at h
    · cases h
    · cases h
      dsimp only [after]
      rw [Block.append_assoc]
      rfl

theorem openBlock_after {p : Prelude} (h : reading.openBlock p = .ok next) :
    (base.after reading).openBlock (shift base.place p) = .ok (base.after next) := by
  unfold openBlock at h ⊢
  dsimp only [shift] at h ⊢
  split at h
  · cases h
  · next hempty =>
    rw [if_neg hempty]
    split at h
    · cases h
    · next hmarker =>
      cases h
      rw [if_neg hmarker]
      rfl

theorem closeBlock_after (h : reading.closeBlock = .ok next) :
    (base.after reading).closeBlock = .ok (base.after next) := by
  unfold closeBlock at h
  split at h
  · cases h
  · next block around haround =>
    cases h
    unfold closeBlock after
    rw [haround]
    dsimp only [enclose, lead]
    rw [Block.append_assoc]
    rfl

/-- What a plain character does inside a prelude: it is added, or it ends the prelude where no bracket
is open. -/
theorem preludeStep_cases {p : Prelude} {c : Char} (h : reading.preludeStep refs p c = .ok next) :
    (∃ depth, bracketStep p.brackets (.plain c) = some depth ∧
        next = reading.extend { p with brackets := depth } [c]) ∨
      p.brackets = 0 ∧ (c = ';' ∧ reading.declare refs p = .ok next ∨
        c = '\x7b' ∧ reading.openBlock p = .ok next ∨
        c = '\x7d' ∧ (reading.declare refs p >>= closeBlock) = .ok next) := by
  unfold preludeStep at h
  cases hopening : isOpening c with
  | true =>
    rw [hopening] at h
    cases h
    exact Or.inl ⟨p.brackets + 1, by simp [bracketStep, hopening], rfl⟩
  | false =>
    rw [hopening] at h
    cases hclosing : isClosing c with
    | true =>
      rw [hclosing] at h
      cases hdepth : p.brackets == 0 with
      | true =>
        rw [hdepth] at h
        cases h
      | false =>
        rw [hdepth] at h
        cases h
        exact Or.inl ⟨p.brackets - 1, by simp [bracketStep, hopening, hclosing, hdepth], rfl⟩
    | false =>
      rw [hclosing] at h
      cases hdepth : p.brackets == 0 with
      | false =>
        rw [hdepth] at h
        cases h
        exact Or.inl ⟨p.brackets, by simp [bracketStep, hopening, hclosing, hdepth], rfl⟩
      | true =>
        rw [hdepth] at h
        rw [if_neg Bool.false_ne_true, if_neg Bool.false_ne_true] at h
        have hzero : p.brackets = 0 := beq_iff_eq.mp hdepth
        split at h
        · next hc => exact Or.inr ⟨hzero, Or.inl ⟨beq_iff_eq.mp hc, h⟩⟩
        · next hsemicolon =>
          split at h
          · next hc => exact Or.inr ⟨hzero, Or.inr (Or.inl ⟨beq_iff_eq.mp hc, h⟩)⟩
          · next hopen =>
            split at h
            · next hc => exact Or.inr ⟨hzero, Or.inr (Or.inr ⟨beq_iff_eq.mp hc, h⟩)⟩
            · next hclose =>
              cases h
              refine Or.inl ⟨p.brackets, ?_, rfl⟩
              simp_all [bracketStep]

section Terminators

variable {p : Prelude} (hdepth : p.brackets = 0)

include hdepth

theorem preludeStep_semicolon : reading.preludeStep refs p ';' = reading.declare refs p := by
  unfold preludeStep
  rw [hdepth]
  rfl

theorem preludeStep_openingBrace : reading.preludeStep refs p '\x7b' = reading.openBlock p := by
  unfold preludeStep
  rw [hdepth]
  rfl

theorem preludeStep_closingBrace :
    reading.preludeStep refs p '\x7d' = reading.declare refs p >>= closeBlock := by
  unfold preludeStep
  rw [hdepth]
  rfl

end Terminators

theorem preludeStep_after {p : Prelude} {c : Char} (h : reading.preludeStep refs p c = .ok next) :
    (base.after reading).preludeStep refs (shift base.place p) c = .ok (base.after next) := by
  rcases preludeStep_cases h with ⟨depth, hstep, rfl⟩ |
    ⟨hdepth, ⟨rfl, hdeclare⟩ | ⟨rfl, hopen⟩ | ⟨rfl, hclose⟩⟩
  · exact preludeStep_of_bracketStep (p := shift base.place p) hstep
  · rw [preludeStep_semicolon (p := shift base.place p) hdepth, declare_after hdeclare]
  · rw [preludeStep_openingBrace (p := shift base.place p) hdepth, openBlock_after hopen]
  · cases hdeclare : reading.declare refs p with
    | error fault =>
      rw [hdeclare] at hclose
      cases hclose
    | ok declared =>
      rw [hdeclare] at hclose
      rw [preludeStep_closingBrace (p := shift base.place p) hdepth, declare_after hdeclare]
      exact closeBlock_after hclose

theorem take_after {lexeme : Lexeme} (h : reading.take refs lexeme = .ok next) :
    (base.after reading).take refs lexeme = .ok (base.after next) := by
  have hprelude : (base.after reading).prelude = reading.prelude.map (shift base.place) := rfl
  unfold take at h ⊢
  rw [hprelude]
  cases hp : reading.prelude with
  | none =>
    rw [hp] at h
    cases lexeme with
    | plain c =>
      dsimp only [Option.map_none] at h ⊢
      split at h
      · next hskipped =>
        cases h
        rw [if_pos hskipped]
      · next hskipped =>
        rw [if_neg hskipped]
        split at h
        · next hclose =>
          rw [if_pos hclose]
          exact closeBlock_after h
        · next hclose =>
          rw [if_neg hclose]
          exact preludeStep_after h
    | openComment body => cases h
    | openQuote quote body => cases h
    | comment body =>
      cases h
      rfl
    | escape c =>
      cases h
      rfl
    | loneEscape =>
      cases h
      rfl
    | quoted quote body =>
      cases h
      rfl
  | some p =>
    rw [hp] at h
    cases lexeme with
    | plain c => exact preludeStep_after h
    | openComment body => cases h
    | openQuote quote body => cases h
    | comment body =>
      cases h
      rfl
    | escape c =>
      cases h
      rfl
    | loneEscape =>
      cases h
      rfl
    | quoted quote body =>
      cases h
      rfl

/-- A lexeme is read further on as it is read alone. -/
theorem step_after {lexeme : Lexeme} (h : reading.step refs lexeme = .ok next) :
    (base.after reading).step refs lexeme = .ok (base.after next) := by
  unfold step at h ⊢
  cases htake : reading.take refs lexeme with
  | error fault =>
    rw [htake] at h
    cases h
  | ok taken =>
    rw [htake] at h
    cases h
    rw [take_after htake]
    show Except.ok _ = Except.ok _
    dsimp only [after]
    rw [Nat.add_assoc]

theorem exists_of_foldlM_cons {lexeme : Lexeme} {lexemes : List Lexeme} {last : Reading}
    (h : (lexeme :: lexemes).foldlM (step refs) reading = .ok last) :
    ∃ next, reading.step refs lexeme = .ok next ∧ lexemes.foldlM (step refs) next = .ok last := by
  rw [List.foldlM_cons] at h
  cases hstep : reading.step refs lexeme with
  | error fault =>
    rw [hstep] at h
    cases h
  | ok next =>
    rw [hstep] at h
    exact ⟨next, rfl, h⟩

/-- Lexemes in a row are read further on as they are read alone. -/
theorem foldlM_after (base : Reading) {lexemes : List Lexeme} {last : Reading}
    (h : lexemes.foldlM (step refs) reading = .ok last) :
    lexemes.foldlM (step refs) (base.after reading) = .ok (base.after last) := by
  induction lexemes generalizing reading with
  | nil =>
    cases h
    rfl
  | cons lexeme lexemes ih =>
    obtain ⟨next, hstep, hrest⟩ := exists_of_foldlM_cons h
    rw [List.foldlM_cons, step_after hstep]
    exact ih hrest

/-! ## The end of a text -/

/-- When a text has been read no block is open, and its last declaration may lack a semicolon. -/
theorem cases_of_finish {last : Reading} {block : Block} (h : last.finish refs = .ok block) :
    last.around = [] ∧ ((last.prelude = none ∧ last.items = block) ∨
      ∃ p, last.prelude = some p ∧ p.brackets = 0 ∧
        last.declare refs p = .ok { last with items := block, prelude := none }) := by
  unfold finish at h
  cases hp : last.prelude with
  | none =>
    rw [hp] at h
    dsimp only [bind, Except.bind] at h
    split at h
    · next haround =>
      cases h
      exact ⟨haround, Or.inl ⟨rfl, rfl⟩⟩
    · cases h
  | some p =>
    rw [hp] at h
    dsimp only at h
    split at h
    · next hdepth =>
      cases hdeclare : last.declare refs p with
      | error fault =>
        rw [hdeclare] at h
        cases h
      | ok declared =>
        rw [hdeclare] at h
        obtain ⟨d, -, rfl⟩ := exists_of_declare hdeclare
        dsimp only [bind, Except.bind] at h
        split at h
        · next haround =>
          cases h
          exact ⟨haround, Or.inr ⟨p, rfl, beq_iff_eq.mp hdepth, hdeclare⟩⟩
        · cases h
    · cases h

/-- A reading after which nothing is open is the one before it with more items. -/
theorem after_of_around_eq_nil (hbase : base.prelude = none) (haround : reading.around = [])
    (hprelude : reading.prelude = none) : base.after reading = { base with
      place := base.place + reading.place, items := base.items ++ reading.items } := by
  unfold after
  rw [haround, hprelude, hbase]
  rfl

/-- At the end of a text its items have been added, or the declaration that has begun adds the last
one. -/
theorem cases_after_of_finish (hbase : base.prelude = none) {last : Reading} {block : Block}
    (h : last.finish refs = .ok block) : ∃ done, done = { base with
        place := base.place + last.place, items := base.items ++ block } ∧
      (base.after last = done ∨ ∃ p, (base.after last).prelude = some p ∧ p.brackets = 0 ∧
        (base.after last).declare refs p = .ok done) := by
  refine ⟨_, rfl, ?_⟩
  obtain ⟨haround, ⟨hprelude, rfl⟩ | ⟨p, hprelude, hdepth, hdeclare⟩⟩ := cases_of_finish h
  · exact Or.inl (after_of_around_eq_nil hbase haround hprelude)
  · refine Or.inr ⟨shift base.place p, by rw [after, hprelude, Option.map_some], hdepth, ?_⟩
    rw [declare_after hdeclare]
    exact congrArg Except.ok (@after_of_around_eq_nil base { last with items := block, prelude := none }
      hbase haround rfl)

theorem finish_after (hbase : base.prelude = none) (haround : base.around = []) {last : Reading}
    {block : Block} (h : last.finish refs = .ok block) :
    (base.after last).finish refs = .ok (base.items ++ block) := by
  obtain ⟨done, hdone, hafter | ⟨p, hprelude, hdepth, hdeclare⟩⟩ := cases_after_of_finish hbase h
  · unfold finish
    rw [hafter, hdone, hbase, haround]
    rfl
  · unfold finish
    rw [hprelude]
    dsimp only
    rw [hdepth, hdeclare, hdone, haround]
    rfl

/-- A semicolon after a text leaves its items. -/
theorem step_after_semicolon (hbase : base.prelude = none) {last : Reading} {block : Block}
    (h : last.finish refs = .ok block) : (base.after last).step refs (.plain ';') = .ok { base with
      place := base.place + last.place + 1, items := base.items ++ block } := by
  obtain ⟨done, hdone, hafter | ⟨p, hprelude, hdepth, hdeclare⟩⟩ := cases_after_of_finish hbase h
  · unfold step take
    rw [hafter, hdone, hbase]
    rfl
  · rw [step_semicolon hprelude hdepth hdeclare, hdone]

/-- A closing brace after a text makes its items those of the block that it closes. -/
theorem step_after_closingBrace (hbase : base.prelude = none) {outer : OpenBlock}
    {around : List OpenBlock} (haround : base.around = outer :: around) {last : Reading}
    {block : Block} (h : last.finish refs = .ok block) :
    (base.after last).step refs (.plain '\x7d') = .ok { base with
      place := base.place + last.place + 1
      items := outer.before ++ nested outer.prelude (base.items ++ block)
      around } := by
  obtain ⟨done, hdone, hafter | ⟨p, hprelude, hdepth, hdeclare⟩⟩ := cases_after_of_finish hbase h
  · unfold step take
    rw [hafter, hdone, hbase]
    dsimp only [closeBlock]
    rw [haround]
    rfl
  · unfold step take
    rw [hprelude]
    dsimp only
    rw [preludeStep_closingBrace hdepth, hdeclare, hdone]
    show ((closeBlock _).bind _) = _
    dsimp only [closeBlock]
    rw [haround]
    rfl

/-! ## Texts that are read alone -/

/-- Comments and quoted texts that never end are not read. -/
theorem isClosed_of_foldlM {lexemes : List Lexeme} {last : Reading}
    (h : lexemes.foldlM (step refs) reading = .ok last) :
    ∀ lexeme ∈ lexemes, lexeme = .loneEscape ∨ lexeme.isClosed = true := by
  induction lexemes generalizing reading with
  | nil => exact fun _ hmem => absurd hmem List.not_mem_nil
  | cons lexeme lexemes ih =>
    obtain ⟨next, hstep, hrest⟩ := exists_of_foldlM_cons h
    intro other hother
    rcases List.mem_cons.mp hother with rfl | hother
    · cases other with
      | loneEscape => exact Or.inl rfl
      | openComment body => cases hstep
      | openQuote quote body => cases hstep
      | _ => exact Or.inr rfl
    · exact ih hrest other hother

theorem exists_of_read {css : List Char} {block : Block} (h : read refs css = .ok block) :
    ∃ last : Reading, (lex true css).foldlM (step refs) {} = .ok last ∧
      last.finish refs = .ok block := by
  unfold read at h
  cases hlast : (lex true css).foldlM (step refs) {} with
  | error fault =>
    rw [hlast] at h
    cases h
  | ok last =>
    rw [hlast] at h
    exact ⟨last, rfl, h⟩

/-- A text that is read and does not end in a backslash leaves nothing open. -/
theorem closed_of_read {css : List Char} {block : Block} (h : read refs css = .ok block)
    (hend : css.getLast? ≠ some '\\') : Closed true css := by
  obtain ⟨last, hlast, -⟩ := exists_of_read h
  intro lexeme hmem
  rcases isClosed_of_foldlM hlast lexeme hmem with rfl | hclosed
  · exact absurd (getLast?_of_loneEscape_mem hmem) hend
  · exact hclosed

section Alone

variable {css : List Char} {block : Block} (h : read refs css = .ok block)
  (hend : css.getLast? ≠ some '\\') (hbase : base.prelude = none)

include h hend hbase

/-- With a semicolon after it, a text adds the items that it has alone, whatever follows. -/
theorem foldlM_semicolon (rest : List Char) :
    ∃ place, (lex true (css ++ ';' :: rest)).foldlM (step refs) base =
      (lex true rest).foldlM (step refs) { base with place, items := base.items ++ block } := by
  obtain ⟨last, hlast, hfinish⟩ := exists_of_read h
  have hread := foldlM_after base hlast
  rw [after_start hbase] at hread
  refine ⟨base.place + last.place + 1, ?_⟩
  rw [lex_append_cons (closed_of_read h hend) (by decide) (by decide), List.foldlM_append, hread]
  show List.foldlM (step refs) (base.after last) (.plain ';' :: lex true rest) = _
  rw [List.foldlM_cons, step_after_semicolon hbase hfinish]
  rfl

/-- With a closing brace after it, a text has the items of the block that ends there. -/
theorem foldlM_closingBrace {outer : OpenBlock} {around : List OpenBlock}
    (haround : base.around = outer :: around) (rest : List Char) :
    ∃ place, (lex true (css ++ '\x7d' :: rest)).foldlM (step refs) base =
      (lex true rest).foldlM (step refs) { base with
        place
        items := outer.before ++ nested outer.prelude (base.items ++ block)
        around } := by
  obtain ⟨last, hlast, hfinish⟩ := exists_of_read h
  have hread := foldlM_after base hlast
  rw [after_start hbase] at hread
  refine ⟨base.place + last.place + 1, ?_⟩
  rw [lex_append_cons (closed_of_read h hend) (by decide) (by decide), List.foldlM_append, hread]
  show List.foldlM (step refs) (base.after last) (.plain '\x7d' :: lex true rest) = _
  rw [List.foldlM_cons, step_after_closingBrace hbase haround hfinish]
  rfl

end Alone

end Reading

/-! ## Two texts -/

theorem parse_eq_ok_iff {css : String} {refs : List DynamicRef} {span : Span} {block : Block} :
    parse css refs span = .ok block ↔ read refs css.toList = .ok block := by
  unfold parse
  cases read refs css.toList with
  | error fault =>
    constructor
    · intro h
      cases h
    · intro h
      cases h
  | ok other =>
    constructor
    · intro h
      cases h
      rfl
    · intro h
      cases h
      rfl

/-- **Texts in a row.**  Two texts that are read to blocks are read, with a semicolon between them, to
the items of the first block followed by those of the second one.  Only a backslash at the end of the
first text, which would escape the semicolon, stands in the way. -/
theorem parse_append_semicolon {a b : String} {refs : List DynamicRef} {span : Span} {x y : Block}
    (ha : parse a refs span = .ok x) (hb : parse b refs span = .ok y)
    (hend : a.toList.getLast? ≠ some '\\') :
    parse (a ++ ";" ++ b) refs span = .ok (x ++ y) := by
  rw [parse_eq_ok_iff] at ha hb ⊢
  have htext : (a ++ ";" ++ b).toList = a.toList ++ ';' :: b.toList := by
    rw [String.toList_append, String.toList_append, List.append_assoc]
    rfl
  obtain ⟨place, hfirst⟩ := @Reading.foldlM_semicolon refs {} _ _ ha hend rfl b.toList
  obtain ⟨last, hlast, hfinish⟩ := Reading.exists_of_read hb
  have hsecond := Reading.foldlM_after { place, items := .nil ++ x } hlast
  rw [Reading.after_start rfl] at hsecond
  unfold read
  rw [htext, hfirst, hsecond]
  exact Reading.finish_after rfl rfl hfinish

/-- A text with an interpolation, and nested blocks whose last declaration has no semicolon. -/
def hoverText : String :=
  "width:__CMPLD_SLOT_0__px;@media print\x7b&:hover\x7bcontent:\"a;\x7d\"\x7d\x7d"

def hoverBlock (width : DynamicRef) : Block :=
  .declaration ⟨"width", [.dynamic width, .text "px"], false⟩ <| .atRule "media" "print"
    (.rule ["&:hover"] (.declaration ⟨"content", [.text "\"a;\x7d\""], false⟩ .nil) .nil) .nil

/-- The text before a comment and a declaration that ends with the text. -/
theorem parse_append_semicolon_hover :
    parse hoverText [⟨⟨.none, "w"⟩, 0⟩] .none = .ok (hoverBlock ⟨⟨.none, "w"⟩, 0⟩) ∧
      parse "/*;*/ margin : 0 1px!important" [⟨⟨.none, "w"⟩, 0⟩] .none =
        .ok (.declaration ⟨"margin", [.text "0 1px"], true⟩ .nil) ∧
      parse (hoverText ++ ";" ++ "/*;*/ margin : 0 1px!important") [⟨⟨.none, "w"⟩, 0⟩] .none =
        .ok (hoverBlock ⟨⟨.none, "w"⟩, 0⟩ ++ .declaration ⟨"margin", [.text "0 1px"], true⟩ .nil) := by
  have hfirst : parse hoverText [⟨⟨.none, "w"⟩, 0⟩] .none = .ok (hoverBlock ⟨⟨.none, "w"⟩, 0⟩) := by
    decide +kernel
  have hsecond : parse "/*;*/ margin : 0 1px!important" [⟨⟨.none, "w"⟩, 0⟩] .none =
      .ok (.declaration ⟨"margin", [.text "0 1px"], true⟩ .nil) := by
    decide +kernel
  exact ⟨hfirst, hsecond, parse_append_semicolon hfirst hsecond (by decide +kernel)⟩

end AtomicStyle.CssText
