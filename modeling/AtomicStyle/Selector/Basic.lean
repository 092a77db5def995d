import AtomicStyle.Text.Blank
import AtomicStyle.Text.Nesting

/-!
# Selectors

Selectors are kept relative to the styled element, which `&` stands for.  Nesting puts the parent
in the place of `&`; a selector without `&` becomes a descendant of the parent, and one that opens
with a colon or a combinator is attached to it.
-/

namespace AtomicStyle.Selector

open AtomicStyle.Text

/-- Whether a character is a combinator with a sign of its own. -/
def isCombinator (c : Char) : Bool :=
  c == '>' || c == '+' || c == '~'

/-! ## Normal form -/

/-- Where a selector stands while it is normalized: the bracket depth, the open quote, whether a
character was kept already, whether blanks were left out since, and whether the last character kept
outside brackets is a combinator. -/
structure NormalState where
  depth : Nat := 0
  quote : Option Char := none
  started : Bool := false
  gap : Bool := false
  afterCombinator : Bool := false

/-- The state after a character that opens or closes brackets or quotes, or none of these. -/
def NormalState.enter (state : NormalState) (c : Char) : NormalState :=
  if isOpening c then { state with depth := state.depth + 1 }
  else if isClosing c then { state with depth := state.depth - 1 }
  else if isQuote c then { state with quote := some c }
  else state

/-- Single spaces for blanks and no spaces around combinators.  Brackets and quoted texts stay as
they are. -/
def normalizeFrom (state : NormalState) : List Char → List Char
  | [] => []
  | c :: rest =>
    match state.quote with
    | some q => c :: normalizeFrom { state with quote := if c == q then none else some q } rest
    | none =>
      if 0 < state.depth then c :: normalizeFrom (state.enter c) rest
      else if isBlank c then normalizeFrom { state with gap := true } rest
      else if isCombinator c then
        c :: normalizeFrom { started := true, afterCombinator := true } rest
      else
        let next := NormalState.enter { started := true } c
        if state.gap && !state.afterCombinator && state.started then
          ' ' :: c :: normalizeFrom next rest
        else c :: normalizeFrom next rest

def normalizeChars (s : List Char) : List Char :=
  normalizeFrom {} (trim s)

/-- The normal form of a selector. -/
def normalize (selector : String) : String :=
  String.ofList (normalizeChars selector.toList)

/-! ## Nesting -/

/-- Whether the parent stands at the top level of a selector. -/
def hasSelf (selector : List Char) : Bool :=
  (mark selector).contains ('&', true)

/-- A selector with the parent in the place of every top-level `&`. -/
def replaceSelf (selector parent : List Char) : List Char :=
  (mark selector).flatMap fun entry => if entry == ('&', true) then parent else [entry.1]

/-- A selector nested inside its parent. -/
def nest (parent child : String) : String :=
  let chars := normalizeChars child.toList
  if hasSelf chars then String.ofList (replaceSelf chars parent.toList)
  else
    let attached := match chars with
      | [] => false
      | c :: _ => c == ':' || isCombinator c
    if attached then parent ++ String.ofList chars
    else parent ++ " " ++ String.ofList chars

/-! ## Rendering -/

/-- The characters of a selector with a text in the place of every `&` outside quotes. -/
def renderFrom (text : List Char) (quote : Option Char) : List Char → List Char
  | [] => []
  | c :: rest =>
    match quote with
    | some q => c :: renderFrom text (if c == q then none else some q) rest
    | none =>
      if isQuote c then c :: renderFrom text (some c) rest
      else if c == '&' then text ++ renderFrom text none rest
      else c :: renderFrom text none rest

/-- A selector for the elements that a class selector picks. -/
def render (selector classSelector : String) : String :=
  String.ofList (renderFrom classSelector.toList none selector.toList)

end AtomicStyle.Selector
