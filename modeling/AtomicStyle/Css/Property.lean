import AtomicStyle.Css.Value
import AtomicStyle.Value.Basic

/-!
# Keys of style objects

A key of a style object names a property, a selector or an at-rule.  Property names are written in
camel case there, and numbers stand for pixels unless the property takes a plain number.
-/

namespace AtomicStyle.Css

open AtomicStyle.Text

/-- The properties that take a plain number. -/
def unitlessProperties : List String :=
  ["animation-iteration-count", "aspect-ratio", "border-image-outset", "border-image-slice",
    "border-image-width", "box-flex", "box-flex-group", "box-ordinal-group", "column-count",
    "columns", "fill-opacity", "flex", "flex-grow", "flex-negative", "flex-order", "flex-positive",
    "flex-shrink", "flood-opacity", "font-weight", "grid-area", "grid-column", "grid-column-end",
    "grid-column-span", "grid-column-start", "grid-row", "grid-row-end", "grid-row-span",
    "grid-row-start", "line-clamp", "line-height", "opacity", "order", "orphans", "scale",
    "stop-opacity", "stroke-dasharray", "stroke-dashoffset", "stroke-miterlimit", "stroke-opacity",
    "stroke-width", "tab-size", "widows", "z-index", "zoom"]

/-- Whether a name is that of a custom property. -/
def isCustom (property : String) : Bool :=
  ['-', '-'].isPrefixOf property.toList

def isUnitless (property : String) : Bool :=
  isCustom property || unitlessProperties.contains property

/-- Whether a key opens with the name of a browser vendor, which is a capital there. -/
def isVendorKey (key : List Char) : Bool :=
  "Webkit".toList.isPrefixOf key || "Moz".toList.isPrefixOf key

/-- A capital becomes a dash and its small letter. -/
def dashed (c : Char) : List Char :=
  if c.isUpper then ['-', c.toLower] else [c]

/-- The CSS name of a property written in camel case.  The vendors' names gain a dash in front;
custom properties stay as they are. -/
def propertyName (key : String) : String :=
  let chars := key.toList
  if isCustom key then key
  else
    let lead : List Char := match chars with
      | 'm' :: 's' :: c :: _ => if c.isUpper then ['-'] else []
      | _ => []
    let body := match chars with
      | [] => []
      | c :: rest => (if isVendorKey chars then dashed c else [c.toLower]) ++ rest.flatMap dashed
    String.ofList (lead ++ body)

/-- Whether a key names a selector rather than a property. -/
def isSelectorKey (key : String) : Bool :=
  let chars := key.toList
  chars.any (fun c => c == '&' || c == ',' || isBlank c) ||
    match chars with
    | [] => false
    | c :: _ => [':', '[', '>', '+', '~', '*', '.', '#'].contains c

/-- Whether a key names an at-rule. -/
def isAtKey (key : String) : Bool :=
  key.toList.head? == some '@'

/-- The name and the parameters of an at-rule. -/
def splitAtRule (prelude : String) : String × String :=
  let body := (trim prelude.toList).dropWhile (· == '@')
  let inName (c : Char) : Bool := !(isBlank c || c == '(')
  (lower (String.ofList (body.takeWhile inName)),
    String.ofList (collapseChars (body.dropWhile inName)))

/-- The selectors of a list separated by commas. -/
def splitSelectors (selectors : String) : List String :=
  (((splitTop ',' selectors.toList).map trim).filter (!·.isEmpty)).map String.ofList

/-! ## Scalars -/

/-- Why a constant cannot be the value of a property. -/
inductive ScalarFault where
  | trueValue
  | array
  | object
  | unsupported
deriving DecidableEq, Repr

def ScalarFault.message : ScalarFault → String
  | trueValue => "`true` is not a valid style value"
  | array => "arrays are not valid style values"
  | object => "objects are only valid for selector and at-rule keys"
  | unsupported => "unsupported style value"

/-- The text of a constant as the value of a property; absent values drop the declaration. -/
def scalarText (property : String) : Value → Except ScalarFault (Option String)
  | .undefined | .null | .bool false => .ok none
  | .str text => .ok (if (trim text.toList).isEmpty then none else some text)
  | .num n =>
    .ok (some (if n == 0 || isUnitless property then Number.text n else Number.text n ++ "px"))
  | .bool true => .error .trueValue
  | .array _ => .error .array
  | .object _ => .error .object
  | .function .. | .module _ => .error .unsupported

end AtomicStyle.Css
