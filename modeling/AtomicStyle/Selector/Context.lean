import AtomicStyle.Bucket
import AtomicStyle.Selector.Basic

/-!
# Selector contexts

Where an atomic rule applies: the at-rules around it and its normalized selector.  The pseudo-class,
the combinator and the bucket of a rule are read off the selector.
-/

namespace AtomicStyle

open AtomicStyle.Text

/-- An at-rule around rules. -/
structure AtRule where
  name : String
  params : String
deriving DecidableEq, Repr

/-- The text of an at-rule before its block. -/
def AtRule.prelude (rule : AtRule) : String :=
  if rule.params.isEmpty then "@" ++ rule.name else "@" ++ rule.name ++ " " ++ rule.params

inductive Combinator where
  | descendant
  | child
  | adjacent
  | generalSibling
deriving DecidableEq, Repr

/-- The combinator that a top-level character of a normalized selector is. -/
def Combinator.ofChar? (c : Char) : Option Combinator :=
  match c with
  | ' ' => some descendant
  | '>' => some child
  | '+' => some adjacent
  | '~' => some generalSibling
  | _ => none

/-- The at-rules around a rule, outermost first, and its selector, in which `&` is the styled
element. -/
structure Context where
  atRules : List AtRule
  selector : String
deriving DecidableEq, Repr

namespace Context

/-- The context of a selector, which is normalized. -/
def of (atRules : List AtRule) (selector : String) : Context :=
  ⟨atRules, Selector.normalize selector⟩

/-- The styled element itself, outside of all at-rules. -/
def root : Context := of [] "&"

/-- The combinators of a selector, in order. -/
def combinators (context : Context) : List Combinator :=
  (mark context.selector.toList).filterMap fun entry =>
    if entry.2 then Combinator.ofChar? entry.1 else none

/-- The last combinator of the selector. -/
def combinator? (context : Context) : Option Combinator :=
  context.combinators.getLast?

/-- Whether the rule picks other elements than the styled one. -/
def isNested (context : Context) : Bool :=
  context.combinator?.isSome

/-- What stands after the last combinator, with its marks, last character first. -/
def lastCompoundReversed (context : Context) : List (Char × Bool) :=
  (mark context.selector.toList).reverse.takeWhile fun entry =>
    !(entry.2 && (Combinator.ofChar? entry.1).isSome)

/-- The pseudo-class or pseudo-element at the end of the selector, with its colons. -/
def pseudo? (context : Context) : Option String :=
  let reversed := context.lastCompoundReversed
  let name := reversed.takeWhile (· != (':', true))
  let colons := match reversed.dropWhile (· != (':', true)) with
    | [] => none
    | _ :: (':', _) :: _ => some [':', ':']
    | _ :: _ => some [':']
  colons.map fun colons => String.ofList (colons ++ (unmark name).reverse)

/-- The part of a class name's seed that stands for the at-rules. -/
def label (context : Context) : String :=
  if context.atRules.isEmpty then "undefined"
  else String.join (context.atRules.map fun rule => rule.name ++ rule.params)

def bucket (context : Context) : Bucket :=
  Bucket.ofSelector context.selector

/-- The selector for the elements that a class selector picks. -/
def render (context : Context) (classSelector : String) : String :=
  Selector.render context.selector classSelector

end Context

end AtomicStyle
