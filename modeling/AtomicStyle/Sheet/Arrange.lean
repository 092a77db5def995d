import AtomicStyle.Css.Shorthand
import AtomicStyle.Distinct
import AtomicStyle.Sheet.Basic

/-!
# Arrangement of rules

Groups of rules are merged into one stylesheet.  Repeated groups and repeated rules are left out.
On every level plain rules come first, by bucket and, within a bucket, shorthands before what they
cover; the blocks of at-rules follow, so that they can override.
-/

namespace AtomicStyle

/-- What decides the order besides the buckets. -/
structure SortOptions where
  /-- At-rule blocks stand by name and parameters instead of in the order of their first rule. -/
  sortAtRules : Bool := false
  /-- Shorthands stand before the longhands they cover. -/
  sortShorthand : Bool := true
deriving DecidableEq, Repr

namespace SortOptions

/-- The place of a rule among the plain rules of its level. -/
def rank (options : SortOptions) (rule : AtomicRule) : Nat × Nat :=
  (rule.bucket.rank, if options.sortShorthand then Css.shorthandRank rule.property else 0)

/-- Whether a rule may stand before another one. -/
def ruleLe (options : SortOptions) (a b : AtomicRule) : Bool :=
  let (bucketA, depthA) := options.rank a
  let (bucketB, depthB) := options.rank b
  bucketA < bucketB || (bucketA == bucketB && depthA ≤ depthB)

/-- Whether an at-rule may stand before another one by name and parameters. -/
def atRuleLe (a b : AtRule) : Bool :=
  a.name < b.name || (a.name == b.name && !(b.params < a.params))

/-- The at-rules of a level in output order. -/
def arrangeAtRules (options : SortOptions) (wrappers : List AtRule) : List AtRule :=
  if options.sortAtRules then wrappers.mergeSort atRuleLe else wrappers

end SortOptions

/-- A rule with the at-rules that are still around it on some level. -/
structure Placed where
  around : List AtRule
  rule : AtomicRule

namespace Sheet

/-- The rules of a level that stand in no further at-rule. -/
def plain (placed : List Placed) : List AtomicRule :=
  (placed.filter (·.around.isEmpty)).map Placed.rule

/-- The outermost at-rules of a level, in the order in which they first occur. -/
def wrappers (placed : List Placed) : List AtRule :=
  (placed.filterMap (·.around.head?)).eraseDups

/-- The rules inside an at-rule, seen from inside. -/
def inside (wrapper : AtRule) (placed : List Placed) : List Placed :=
  (placed.filter (·.around.head? == some wrapper)).map fun p => { p with around := p.around.tail }

/-- Arranges the rules of a level around which at most `depth` at-rules are left. -/
def arrangeFrom (options : SortOptions) : Nat → List Placed → Sheet
  | 0, placed => ofRules ((plain placed).mergeSort options.ruleLe) nil
  | depth + 1, placed =>
    let blocks := (options.arrangeAtRules (wrappers placed)).map fun wrapper =>
      (wrapper, arrangeFrom options depth (inside wrapper placed))
    ofRules ((plain placed).mergeSort options.ruleLe) (ofBlocks blocks)

/-- What makes two rules the same. -/
def identity (rule : AtomicRule) : Context × String × String × Bool :=
  (rule.context, rule.property, rule.value, rule.important)

/-- The rules of groups in the order in which they are met, each once.  A group whose digest was met
before is left out. -/
def distinctRules (groups : List RuleGroup) : List AtomicRule :=
  earliest identity ((earliest RuleGroup.digest groups).flatMap RuleGroup.rules)

/-- Arranges rules. -/
def arrange (options : SortOptions) (rules : List AtomicRule) : Sheet :=
  let depth := (rules.map (·.context.atRules.length)).foldl max 0
  arrangeFrom options depth (rules.map fun rule => ⟨rule.context.atRules, rule⟩)

/-- Merges groups into one stylesheet. -/
def ofGroups (options : SortOptions) (groups : List RuleGroup) : Sheet :=
  arrange options (distinctRules groups)

end Sheet

end AtomicStyle
