import AtomicStyle.Css.Property
import AtomicStyle.Style.Block
import AtomicStyle.Style.Fault

/-!
# Entries of style objects

A style object as its entries in source order.  An entry holds a constant, a value with run-time
parts, or the entries of a nested object; the block of the entries reads their keys as properties,
selectors and at-rules.
-/

namespace AtomicStyle

/-- The entries of a style object in source order, each with its key and its place. -/
inductive Entries where
  | nil
  | scalar (key : String) (span : Span) (value : Value) (rest : Entries)
  | parts (key : String) (span : Span) (value : List ValuePart) (rest : Entries)
  | block (key : String) (span : Span) (body rest : Entries)

namespace Entries

instance : Inhabited Entries := ⟨.nil⟩

/-- The entries of one object after those of another. -/
def append : Entries → Entries → Entries
  | nil, other => other
  | scalar key span value rest, other => scalar key span value (rest.append other)
  | parts key span value rest, other => parts key span value (rest.append other)
  | block key span body rest, other => block key span body (rest.append other)

instance : Append Entries := ⟨append⟩

/-- The entries of a constant object. -/
def ofMembers : List (String × Value) → Entries
  | [] => nil
  | (key, .object members) :: rest => block key Span.none (ofMembers members) (ofMembers rest)
  | (key, value) :: rest => scalar key Span.none value (ofMembers rest)

/-- Whether a key names a selector or an at-rule, which hold objects only. -/
def needsBlock (key : String) : Bool :=
  Css.isAtKey key || Css.isSelectorKey key

/-- The name of the property of a scalar entry and its text; `none` drops the entry. -/
def scalarText (key : String) (value : Value) : Except StyleFault (String × Option String) :=
  if needsBlock key then .error (.needsObject key)
  else
    let property := Css.propertyName key
    match Css.scalarText property value with
    | .error fault => .error (.scalar fault key)
    | .ok text => .ok (property, text)

/-- The block of a style object. -/
def toBlock : Entries → Except CompileError Block
  | nil => .ok .nil
  | scalar key span value rest => do
    let (property, text) ← (scalarText (Text.trimmed key) value).mapError (.unsupportedStyle · span)
    let items ← rest.toBlock
    match text with
    | none => .ok items
    | some text => .ok (.declaration (Declaration.ofParts property [.text text]) items)
  | parts key span value rest => do
    let key := Text.trimmed key
    if needsBlock key then .error (.unsupportedStyle (.needsObject key) span)
    else
      let items ← rest.toBlock
      .ok (.declaration (Declaration.ofParts (Css.propertyName key) value) items)
  | block key _ body rest => do
    let key := Text.trimmed key
    let inner ← body.toBlock
    let items ← rest.toBlock
    if Css.isAtKey key then
      let (name, params) := Css.splitAtRule key
      .ok (.atRule name params inner items)
    else .ok (.rule (Css.splitSelectors key) inner items)

/-! ## Constant objects inside CSS text -/

/-- The CSS text of a constant object that is interpolated into CSS text. -/
def cssText : List (String × Value) → Except StyleFault String
  | [] => .ok ""
  | (key, .object members) :: rest => do
    let inner ← cssText members
    let tail ← cssText rest
    .ok (key ++ "\x7b" ++ inner ++ "\x7d" ++ tail)
  | (key, value) :: rest => do
    let (property, text) ← scalarText key value
    let tail ← cssText rest
    match text with
    | none => .ok tail
    | some text => .ok (property ++ ":" ++ text ++ ";" ++ tail)

end Entries

end AtomicStyle
