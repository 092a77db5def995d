import AtomicStyle.ClassName.Compression
import AtomicStyle.Css.Value
import AtomicStyle.Digest
import AtomicStyle.Module.Reference
import AtomicStyle.Selector.Context
import AtomicStyle.Text.Search

/-!
# Atomic rules

A rule with one declaration and a class name of its own, and the groups in which rules are
declared together.
-/

namespace AtomicStyle

/-- How rules are written out. -/
structure Rendering where
  increaseSpecificity : Bool := false
  compression : Option CompressionMap := none

/-- A rule with one declaration. -/
structure AtomicRule where
  context : Context
  property : String
  value : String
  important : Bool
  className : String
deriving DecidableEq, Repr

namespace AtomicRule

/-- A block in braces after its prelude. -/
def braced (prelude body : String) : String :=
  prelude ++ "\x7b" ++ body ++ "\x7d"

def bucket (rule : AtomicRule) : Bucket :=
  rule.context.bucket

/-- The text of the declaration. -/
def declaration (rule : AtomicRule) : String :=
  rule.property ++ ":" ++ rule.value ++ (if rule.important then "!important" else "")

/-- The class name in the stylesheet: its token where the map has one. -/
def cssClass (rule : AtomicRule) (compression : Option CompressionMap) : String :=
  (compression.bind (·.get? rule.className)).getD rule.className

/-- The class name on the element. -/
def elementClass (rule : AtomicRule) (compression : Option CompressionMap) : String :=
  (compression.bind (·.compress? rule.className)).getD rule.className

/-- What is appended to a class selector so that it outweighs an element's identifier. -/
def specificityBoost : String := ":not(#\\#)"

def selector (rule : AtomicRule) (rendering : Rendering) : String :=
  rule.context.render ("." ++ rule.cssClass rendering.compression ++
    (if rendering.increaseSpecificity then specificityBoost else ""))

/-- The text of the rule without the at-rules around it. -/
def text (rule : AtomicRule) (rendering : Rendering) : String :=
  braced (rule.selector rendering) rule.declaration

/-- The text of the rule inside its at-rules. -/
def toCss (rule : AtomicRule) (rendering : Rendering) : String :=
  rule.context.atRules.foldr (fun atRule css => braced atRule.prelude css) (rule.text rendering)

/-- Whether the value refers to a generated variable. -/
def usesVariable (rule : AtomicRule) : Bool :=
  Text.hasText "var(--_" rule.value

/-- Whether the value holds an image as data. -/
def hasInlineImage (rule : AtomicRule) : Bool :=
  ["url(data:", "url(\"data:", "url('data:"].any (Text.hasText · rule.value)

end AtomicRule

/-- A CSS variable that is set on the element to the value of an expression, with what stood around
the expression. -/
structure CssVariable where
  name : String
  expression : SourceRef
  before : String
  after : String
deriving DecidableEq, Repr

/-- The rules of one declared style. -/
structure RuleGroup where
  rules : List AtomicRule
  vars : List CssVariable
deriving DecidableEq, Repr

namespace RuleGroup

def isEmpty (group : RuleGroup) : Bool :=
  group.rules.isEmpty

def classNames (group : RuleGroup) : List String :=
  group.rules.map AtomicRule.className

/-- The class names in rule order, with spaces between them. -/
def classList (group : RuleGroup) : String :=
  String.intercalate " " group.classNames

/-- The digest by which equal groups are recognised. -/
def digest (group : RuleGroup) : String :=
  Digest.hash group.classList

end RuleGroup

end AtomicStyle
