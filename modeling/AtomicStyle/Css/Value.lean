import AtomicStyle.Text.Blank
import AtomicStyle.Text.Nesting

/-!
# Value texts

The right-hand side of a declaration as text: its words, its canonical spelling, and the
`!important` at its end.
-/

namespace AtomicStyle.Css

open AtomicStyle.Text

/-! ## Blanks -/

/-- Where a text stands while its blanks are collapsed: the open quote, whether the last character
was a backslash inside it, whether a character was kept already, and whether blanks were left out
since. -/
structure CollapseState where
  quote : Option Char := none
  escaped : Bool := false
  started : Bool := false
  gap : Bool := false

/-- The state inside a quoted text after one more of its characters. -/
def CollapseState.quotedStep (state : CollapseState) (q c : Char) : CollapseState :=
  if state.escaped then { state with escaped := false }
  else if c == '\\' then { state with escaped := true }
  else if c == q then { state with quote := none }
  else state

/-- Replaces every run of blanks outside quotes by one space and drops those at the two ends. -/
def collapseFrom (state : CollapseState) : List Char → List Char
  | [] => []
  | c :: rest =>
    match state.quote with
    | some q => c :: collapseFrom (state.quotedStep q c) rest
    | none =>
      if isBlank c then collapseFrom { state with gap := state.started } rest
      else
        let next : CollapseState :=
          { started := true, quote := if isQuote c then some c else none }
        if state.gap then ' ' :: c :: collapseFrom next rest else c :: collapseFrom next rest

/-- A value with single spaces, its quoted texts left alone. -/
def collapseChars (s : List Char) : List Char :=
  collapseFrom {} s

def collapse (value : String) : String :=
  String.ofList (collapseChars value.toList)

/-! ## Words -/

/-- Pairs every character with whether it separates words: a blank outside quotes and
parentheses. -/
def wordMarksFrom (depth : Int) (quote : Option Char) : List Char → List (Char × Bool)
  | [] => []
  | c :: rest =>
    match quote with
    | some q => (c, false) :: wordMarksFrom depth (if c == q then none else some q) rest
    | none =>
      if isBlank c && depth == 0 then (c, true) :: wordMarksFrom depth none rest
      else if isQuote c then (c, false) :: wordMarksFrom depth (some c) rest
      else if c == '(' then (c, false) :: wordMarksFrom (depth + 1) none rest
      else if c == ')' then (c, false) :: wordMarksFrom (depth - 1) none rest
      else (c, false) :: wordMarksFrom depth none rest

/-- The words of a value.  Blanks inside quotes and parentheses do not separate words. -/
def wordChars (s : List Char) : List (List Char) :=
  (((wordMarksFrom 0 none s).splitOnP Prod.snd).map unmark).filter (!·.isEmpty)

def words (value : String) : List String :=
  (wordChars value.toList).map String.ofList

/-- The standard spelling of a word: `currentColor` has a capital. -/
def canonicalWord (word : String) : String :=
  let small := lower word
  if small == "currentcolor" || small == "current-color" then "currentColor" else word

/-- The standard spelling of a value, under which equal values get equal class names. -/
def canonical (value : String) : String :=
  String.intercalate " " ((words (collapse value)).map canonicalWord)

/-! ## Importance -/

/-- A text without `!important` at its end, where it has one. -/
def stripImportant? (s : List Char) : Option (List Char) :=
  let tail := "important".toList.reverse
  let reversed := s.reverse.dropWhile isBlank
  if (reversed.take tail.length).map Char.toLower == tail then
    match (reversed.drop tail.length).dropWhile isBlank with
    | '!' :: rest => some (rest.dropWhile isBlank).reverse
    | _ => none
  else none

/-- A value and whether `!important` was split off its end. -/
def splitImportant (value : String) : String × Bool :=
  match stripImportant? value.toList with
  | some rest => (String.ofList rest, true)
  | none => (value, false)

end AtomicStyle.Css
