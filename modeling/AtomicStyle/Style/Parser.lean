import AtomicStyle.Css.Lexeme
import AtomicStyle.Css.Property
import AtomicStyle.Number.Reader
import AtomicStyle.Style.Block
import AtomicStyle.Style.Fault
import AtomicStyle.Text.Search

/-!
# Reading CSS text

CSS text with nested rules becomes a block.  The lexemes of the text are read one after the other;
what has been read so far is the items of the innermost open block, the blocks around it, and the
prelude that has begun.  Run-time expressions stand in the text as markers that index a list of
references; they are accepted in values only.
-/

namespace AtomicStyle.CssText

open AtomicStyle.Css AtomicStyle.Text

/-- The text that opens a marker. -/
def markerOpen : List Char := "__CMPLD_SLOT_".toList

/-- The text that closes a marker. -/
def markerClose : List Char := "__".toList

/-- The marker of the reference with the given index. -/
def marker (index : Nat) : String :=
  String.ofList (markerOpen ++ Nat.toDigits 10 index ++ markerClose)

def hasMarker (s : List Char) : Bool :=
  (cut? markerOpen s).isSome

/-- A fault and the number of characters before its place. -/
abbrev Fault := CssFault × Nat

/-! ## Preludes -/

/-- A text without the comments in it, wherever they stand, read inside or outside of one. -/
def stripCommentsFrom : Bool → List Char → List Char
  | _, [] => []
  | false, '/' :: '*' :: rest => stripCommentsFrom true rest
  | false, c :: rest => c :: stripCommentsFrom false rest
  | true, '*' :: '/' :: rest => stripCommentsFrom false rest
  | true, _ :: rest => stripCommentsFrom true rest

/-- A text without the comments in it, also those inside quotes; an open one takes the rest. -/
def stripComments (s : List Char) : List Char :=
  stripCommentsFrom false s

/-- The parts of a value in which markers stand for references. -/
def valueParts? (refs : List DynamicRef) (value : List Char) : Option (List ValuePart) :=
  match h : cut? markerOpen value with
  | none => some (if value.isEmpty then [] else [.text (String.ofList value)])
  | some (before, after) => do
    have := length_lt_of_cut? (by decide) h
    let digits := after.takeWhile Char.isDigit
    let rest := after.dropWhile Char.isDigit
    if digits.isEmpty || !markerClose.isPrefixOf rest then failure
    let ref ← refs[Number.ofDigits digits]?
    let parts ← valueParts? refs (rest.drop markerClose.length)
    let lead := if before.isEmpty then [] else [ValuePart.text (String.ofList before)]
    return lead ++ .dynamic ref :: parts
termination_by value.length
decreasing_by
  have : (after.dropWhile Char.isDigit).length ≤ after.length :=
    (List.dropWhile_sublist _).length_le
  simp only [List.length_drop]
  omega

/-- The declaration that a text spells. -/
def declaration (refs : List DynamicRef) (text : List Char) : Except CssFault Declaration := do
  let some (before, after) := cutTop? ':' text
    | .error (.missingColon (String.ofList text))
  let property := trim before
  let value := collapseChars after
  if property.isEmpty then .error .missingProperty
  else if hasMarker property then .error .misplacedInterpolation
  else if value.isEmpty then .error (.emptyValue (String.ofList property))
  else
    let name := String.ofList property
    match valueParts? refs value with
    | none => .error .invalidMarker
    | some parts => .ok (Declaration.ofParts (if isCustom name then name else lower name) parts)

/-- The rule or at-rule with the given prelude around a block. -/
def nested (prelude : List Char) (body : Block) : Block :=
  let text := String.ofList prelude
  if isAtKey text then
    let (name, params) := splitAtRule text
    .atRule name params body .nil
  else .rule (splitSelectors text) body .nil

/-! ## The reader -/

/-- A block that has been opened: its prelude, the place of its brace, and the items before it in
the block around it. -/
structure OpenBlock where
  prelude : List Char
  place : Nat
  before : Block

/-- A prelude that has begun: its place, its text so far, and the open brackets in it. -/
structure Prelude where
  start : Nat
  text : List Char := []
  brackets : Nat := 0

/-- What has been read: the number of characters, the items of the innermost block, the blocks
around it, innermost first, and the prelude that has begun. -/
structure Reading where
  place : Nat := 0
  items : Block := .nil
  around : List OpenBlock := []
  prelude : Option Prelude := none

namespace Reading

/-- The reading with a prelude that goes on. -/
def extend (reading : Reading) (p : Prelude) (text : List Char) : Reading :=
  { reading with prelude := some { p with text := p.text ++ text } }

/-- Takes the prelude that has ended as a declaration. -/
def declare (refs : List DynamicRef) (reading : Reading) (p : Prelude) :
    Except Fault Reading :=
  let text := trim (stripComments p.text)
  if text.head? == some '@' then
    .error (.unsupportedAtRule (String.ofList text), p.start)
  else
    match declaration refs text with
    | .error fault => .error (fault, p.start)
    | .ok d =>
      .ok { reading with items := reading.items ++ .declaration d .nil, prelude := none }

/-- Takes the prelude that has ended as that of a block. -/
def openBlock (reading : Reading) (p : Prelude) : Except Fault Reading :=
  let text := trim (stripComments p.text)
  if text.isEmpty then .error (.missingSelector, p.start)
  else if hasMarker text then .error (.misplacedInterpolation, p.start)
  else
    .ok { reading with
      items := .nil
      around := ⟨text, reading.place, reading.items⟩ :: reading.around
      prelude := none }

/-- Ends the innermost block. -/
def closeBlock (reading : Reading) : Except Fault Reading :=
  match reading.around with
  | [] => .error (.unexpected '\x7d', reading.place)
  | block :: around =>
    .ok { reading with items := block.before ++ nested block.prelude reading.items, around }

/-- Reads a plain character inside a prelude. -/
def preludeStep (refs : List DynamicRef) (reading : Reading) (p : Prelude) (c : Char) :
    Except Fault Reading :=
  if isOpening c then
    .ok (reading.extend { p with brackets := p.brackets + 1 } [c])
  else if isClosing c then
    if p.brackets == 0 then .error (.unexpected c, reading.place)
    else .ok (reading.extend { p with brackets := p.brackets - 1 } [c])
  else if p.brackets == 0 && c == ';' then reading.declare refs p
  else if p.brackets == 0 && c == '\x7b' then reading.openBlock p
  else if p.brackets == 0 && c == '\x7d' then do (← reading.declare refs p).closeBlock
  else .ok (reading.extend p [c])

/-- Reads one lexeme; its length is added to the place afterwards. -/
def take (refs : List DynamicRef) (reading : Reading) (lexeme : Lexeme) : Except Fault Reading :=
  match lexeme, reading.prelude with
  | .openComment _, _ => .error (.unterminatedComment, reading.place)
  | .openQuote _ _, _ => .error (.unterminatedString, reading.place)
  | .comment _, none => .ok reading
  | .plain c, none =>
    if isCssBlank c || c == ';' then .ok reading
    else if c == '\x7d' then reading.closeBlock
    else reading.preludeStep refs { start := reading.place } c
  | .plain c, some p => reading.preludeStep refs p c
  | lexeme, none => .ok (reading.extend { start := reading.place } lexeme.text)
  | lexeme, some p => .ok (reading.extend p lexeme.text)

/-- The reading after one lexeme. -/
def step (refs : List DynamicRef) (reading : Reading) (lexeme : Lexeme) : Except Fault Reading := do
  let next ← reading.take refs lexeme
  return { next with place := next.place + lexeme.text.length }

/-- The block that has been read when the text ends. -/
def finish (refs : List DynamicRef) (reading : Reading) : Except Fault Block := do
  let reading ←
    match reading.prelude with
    | none => .ok reading
    | some p =>
      if p.brackets == 0 then reading.declare refs p
      else .error (.unclosedParenthesis, reading.place)
  match reading.around with
  | [] => .ok reading.items
  | block :: _ => .error (.unclosedBlock, block.place)

end Reading

/-- The line and the column after some characters, both counted from one. -/
def lineColumn (before : List Char) : Nat × Nat :=
  (before.count '\n' + 1, (before.reverse.takeWhile (· != '\n')).length + 1)

/-- The block of a text, or its first fault. -/
def read (refs : List DynamicRef) (text : List Char) : Except Fault Block := do
  let reading ← (lex true text).foldlM (Reading.step refs) {}
  reading.finish refs

/-- The block of a text at a place of a unit. -/
def parse (text : String) (refs : List DynamicRef) (span : Span) : Except CompileError Block :=
  (read refs text.toList).mapError fun fault =>
    let (line, column) := lineColumn (text.toList.take fault.2)
    .malformedCss fault.1 span line column

end AtomicStyle.CssText
