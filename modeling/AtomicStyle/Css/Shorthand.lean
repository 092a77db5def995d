import AtomicStyle.Css.Value
import AtomicStyle.Number.Reader
import AtomicStyle.Text.Search

/-!
# Shorthand properties

A shorthand with a static value is expanded into its longhands, so that a later longhand and an
earlier shorthand compete for the same place.  Border-like shorthands are kept, with their words in
a fixed order.
-/

namespace AtomicStyle.Css

/-- Values that reset a whole property. -/
def globalValues : List String := ["inherit", "initial", "unset", "revert", "revert-layer"]

def lineStyles : List String :=
  ["none", "hidden", "dotted", "dashed", "solid", "double", "groove", "ridge", "inset", "outset"]

def lineWidths : List String := ["thin", "medium", "thick"]

def widthKeywords : List String := ["auto", "min-content", "max-content", "fit-content"]

/-- Whether a value refers to a custom property, so that its words are not known. -/
def usesVar (value : String) : Bool :=
  Text.hasText "var(" value

def isNumber (word : String) : Bool :=
  Number.isNumeral word.toList

def mathFunctions : List String := ["calc(", "min(", "max(", "clamp("]

/-- Whether a word is a dimension, a percentage or a math function. -/
def isLength (word : String) : Bool :=
  let chars := word.toList
  let startsUnit (c : Char) : Bool := c.isAlpha || c == '%'
  let number := chars.takeWhile (!startsUnit ·)
  let unit := chars.dropWhile (!startsUnit ·)
  mathFunctions.any (fun f => f.toList.isPrefixOf chars) ||
    (!unit.isEmpty && Number.isNumeral number && (unit == ['%'] || unit.all Char.isAlpha))

/-! ## Expansion -/

/-- A longhand and its value. -/
abbrev Longhand := String × String

/-- The four sides from one to four words, as CSS fills them up. -/
def fourSides? (top right bottom left : String) : List String → Option (List Longhand)
  | [a] => some [(top, a), (right, a), (bottom, a), (left, a)]
  | [a, b] => some [(top, a), (right, b), (bottom, a), (left, b)]
  | [a, b, c] => some [(top, a), (right, b), (bottom, c), (left, b)]
  | [a, b, c, d] => some [(top, a), (right, b), (bottom, c), (left, d)]
  | _ => none

/-- Two axes from one or two words. -/
def twoAxes? (first second : String) : List String → Option (List Longhand)
  | [a] => some [(first, a), (second, a)]
  | [a, b] => some [(first, a), (second, b)]
  | _ => none

/-- Puts words into the parts of a shorthand by kind; two words of one kind do not fit. -/
def sortParts? {κ : Type} [DecidableEq κ] (kindOf : String → Option κ) :
    List String → Option (List (κ × String))
  | [] => some []
  | word :: rest => do
    let kind ← kindOf word
    let parts ← sortParts? kindOf rest
    if (parts.lookup kind).isSome then none else some ((kind, word) :: parts)

inductive FlowPart where
  | direction | wrap
deriving DecidableEq, Repr

def flowPart? (word : String) : Option FlowPart :=
  if ["row", "row-reverse", "column", "column-reverse"].contains word then some .direction
  else if ["nowrap", "wrap", "wrap-reverse"].contains word then some .wrap
  else none

def flexFlow? (words : List String) : Option (List Longhand) := do
  let parts ← sortParts? flowPart? words
  return [("flex-direction", (parts.lookup .direction).getD "row"),
    ("flex-wrap", (parts.lookup .wrap).getD "nowrap")]

def isFlexBasis (word : String) : Bool :=
  word == "content" || word == "0" || isLength word || widthKeywords.contains word

/-- A basis of zero is written as a percentage. -/
def flexBasis (word : String) : String :=
  if word == "0" then "0%" else word

def flex? (words : List String) : Option (List Longhand) :=
  let longhands (grow shrink basis : String) : Option (List Longhand) :=
    some [("flex-grow", grow), ("flex-shrink", shrink), ("flex-basis", basis)]
  match words with
  | [a] =>
    if a == "auto" then longhands "1" "1" "auto"
    else if a == "none" then longhands "0" "0" "auto"
    else if isNumber a then longhands a "1" "0%"
    else if isFlexBasis a then longhands "1" "1" (flexBasis a)
    else none
  | [a, b] =>
    if isNumber a && isNumber b then longhands a b "0%"
    else if isNumber a && isFlexBasis b then longhands a "1" (flexBasis b)
    else none
  | [a, b, c] =>
    if isNumber a && isNumber b && isFlexBasis c then longhands a b (flexBasis c) else none
  | _ => none

/-- The parts of a line, in the order in which they are written. -/
inductive LinePart where
  | width | style | color
deriving DecidableEq, Repr

def LinePart.rank : LinePart → Nat
  | width => 0
  | style => 1
  | color => 2

/-- What a word of a line sets; a word that is neither a width nor a style is a color. -/
def linePart (word : String) : LinePart :=
  if lineWidths.contains word || word == "0" || isLength word then .width
  else if lineStyles.contains word then .style
  else .color

def outline? (words : List String) : Option (List Longhand) := do
  if words.length > 3 then failure
  let parts ← sortParts? (fun word => some (linePart word)) words
  return [("outline-color", (parts.lookup .color).getD "currentColor"),
    ("outline-style", (parts.lookup .style).getD "none"),
    ("outline-width", (parts.lookup .width).getD "medium")]

/-- The longhands of a property and the words of its value. -/
def longhands? (property : String) (words : List String) : Option (List Longhand) :=
  match property with
  | "margin" | "padding" | "scroll-margin" | "scroll-padding" =>
    fourSides? (property ++ "-top") (property ++ "-right") (property ++ "-bottom")
      (property ++ "-left") words
  | "inset" => fourSides? "top" "right" "bottom" "left" words
  | "border-width" =>
    fourSides? "border-top-width" "border-right-width" "border-bottom-width" "border-left-width"
      words
  | "border-style" =>
    fourSides? "border-top-style" "border-right-style" "border-bottom-style" "border-left-style"
      words
  | "border-color" =>
    fourSides? "border-top-color" "border-right-color" "border-bottom-color" "border-left-color"
      words
  | "overflow" => twoAxes? "overflow-x" "overflow-y" words
  | "gap" => twoAxes? "row-gap" "column-gap" words
  | "place-content" =>
    if [["left"], ["right"], ["baseline"]].contains words then none
    else twoAxes? "align-content" "justify-content" words
  | "place-items" => twoAxes? "align-items" "justify-items" words
  | "place-self" => twoAxes? "align-self" "justify-self" words
  | "flex-flow" => flexFlow? words
  | "flex" => flex? words
  | "outline" => outline? words
  | _ => none

/-- The longhand declarations that replace a declaration, if it is replaced at all. -/
def expand? (property value : String) : Option (List Longhand) :=
  let parts := words value
  if usesVar value || parts.isEmpty || parts.any globalValues.contains then none
  else longhands? property parts

/-! ## Lines -/

/-- The shorthands for a line with a width, a style and a color. -/
def lineShorthands : List String :=
  ["border", "border-top", "border-right", "border-bottom", "border-left", "border-block",
    "border-block-start", "border-block-end", "border-inline", "border-inline-start",
    "border-inline-end", "column-rule"]

/-- The words of a line shorthand in the order width, style, color. -/
def reorderLine? (property value : String) : Option String :=
  let parts := words value
  let kinds := parts.map linePart
  if !lineShorthands.contains property || usesVar value then none
  else if parts.length < 2 || parts.length > 3 then none
  else if kinds.eraseDups.length != kinds.length then none
  else
    let sorted := parts.mergeSort fun a b => (linePart a).rank ≤ (linePart b).rank
    some (String.intercalate " " sorted)

/-! ## Depth -/

/-- The shorthands by depth: a shorthand is emitted before those it covers. -/
def shorthandsByDepth : List (List String) :=
  [["all"],
    ["animation", "animation-range", "background", "border", "border-image", "border-radius",
      "column-rule", "columns", "contain-intrinsic-size", "container", "flex", "flex-flow", "font",
      "font-synthesis", "gap", "grid", "grid-area", "inset", "list-style", "margin", "mask",
      "mask-border", "offset", "outline", "overflow", "overscroll-behavior", "padding",
      "place-content", "place-items", "place-self", "scroll-margin", "scroll-padding",
      "scroll-timeline", "text-decoration", "text-emphasis", "transition"],
    ["border-color", "border-style", "border-width", "font-variant", "grid-column", "grid-row",
      "grid-template", "inset-block", "inset-inline", "margin-block", "margin-inline",
      "padding-block", "padding-inline", "scroll-margin-block", "scroll-margin-inline",
      "scroll-padding-block", "scroll-padding-inline"],
    ["border-block", "border-inline"],
    ["border-top", "border-right", "border-bottom", "border-left"],
    ["border-block-start", "border-block-end", "border-inline-start", "border-inline-end"]]

/-- How deep a shorthand is nested in others; a longhand has no depth. -/
def shorthandDepth? (property : String) : Option Nat :=
  shorthandsByDepth.findIdx? (·.contains property)

/-- The place of a property in emission order: shorthands by depth, then every longhand. -/
def shorthandRank (property : String) : Nat :=
  (shorthandDepth? property).getD shorthandsByDepth.length

end AtomicStyle.Css
