import AtomicStyle.Rule.Atomic

/-!
# Stylesheets

Atomic rules in output order, with the rules of one at-rule inside one block.
-/

namespace AtomicStyle

/-- Rules and at-rule blocks in output order. -/
inductive Sheet where
  | nil
  | rule (r : AtomicRule) (rest : Sheet)
  | atRule (wrapper : AtRule) (body rest : Sheet)
deriving DecidableEq, Repr

namespace Sheet

instance : Inhabited Sheet := ⟨.nil⟩

def isEmpty : Sheet → Bool
  | nil => true
  | _ => false

/-- Rules in front of a sheet. -/
def ofRules (rules : List AtomicRule) (rest : Sheet) : Sheet :=
  rules.foldr rule rest

/-- Blocks in a row. -/
def ofBlocks (blocks : List (AtRule × Sheet)) : Sheet :=
  blocks.foldr (fun block rest => atRule block.1 block.2 rest) nil

/-- Every rule in output order, those inside blocks included. -/
def rules : Sheet → List AtomicRule
  | nil => []
  | rule r rest => r :: rest.rules
  | atRule _ body rest => body.rules ++ rest.rules

/-- The texts of the items in order, each at-rule with its whole block. -/
def itemTexts (rendering : Rendering) : Sheet → List String
  | nil => []
  | rule r rest => r.text rendering :: rest.itemTexts rendering
  | atRule wrapper body rest =>
    AtomicRule.braced wrapper.prelude (String.join (body.itemTexts rendering)) ::
      rest.itemTexts rendering

/-- The stylesheet text, with one rule or at-rule block on a line. -/
def toCss (sheet : Sheet) (rendering : Rendering) : String :=
  String.intercalate "\n" (sheet.itemTexts rendering)

/-- One text for each rule, inside its at-rules. -/
def ruleTexts (sheet : Sheet) (rendering : Rendering) : List String :=
  sheet.rules.map (·.toCss rendering)

end Sheet

/-- Counts that describe a stylesheet. -/
structure SheetReport where
  totalRules : Nat
  nestedRules : Nat
  variableRules : Nat
  imageRules : Nat
deriving DecidableEq, Repr

def Sheet.report (sheet : Sheet) : SheetReport :=
  let rules := sheet.rules
  { totalRules := rules.length
    nestedRules := rules.countP (·.context.isNested)
    variableRules := rules.countP (·.usesVariable)
    imageRules := rules.countP (·.hasInlineImage) }

end AtomicStyle
