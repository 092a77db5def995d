import AtomicStyle.Bucket

/-!
# Faults of a live stylesheet

What can go wrong when rules are put into a document.
-/

namespace AtomicStyle

/-- What is wrong with the text of rules. -/
inductive RuleFault where
  | unterminatedComment
  | unterminatedString
  | unexpectedBrace
  | unbalancedBraces
  | trailingText
  | emptyRule
  | notOneRule
  | missingBlock
deriving DecidableEq, Repr

def RuleFault.message : RuleFault → String
  | unterminatedComment => "unterminated comment"
  | unterminatedString => "unterminated string"
  | unexpectedBrace => "unexpected `\x7d`"
  | unbalancedBraces => "unbalanced braces"
  | trailingText => "trailing text without a block"
  | emptyRule => "empty rule"
  | notOneRule => "expected exactly one rule"
  | missingBlock => "missing block"

/-- Why a rule is not in the document. -/
inductive SheetFault where
  /-- The document has an owner already. -/
  | duplicateOwner
  | malformedRule (rule : String) (fault : RuleFault)
  /-- The document has no style element for the rule. -/
  | missingPoint (point : InsertionPoint)
deriving DecidableEq, Repr

def SheetFault.message : SheetFault → String
  | duplicateOwner =>
    "Another stylesheet manager already owns this document. " ++
      "Is the styling runtime loaded more than once?"
  | malformedRule rule fault => "Malformed CSS rule `" ++ rule ++ "`: " ++ fault.message
  | missingPoint point =>
    "No insertion point exists for InsertionPoint \x7b at_rule: " ++
      (if point.inAtRule then "true" else "false") ++ ", bucket: " ++ point.bucket.word ++ " \x7d"

end AtomicStyle
