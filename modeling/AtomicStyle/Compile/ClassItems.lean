import AtomicStyle.Rule.Atomize
import AtomicStyle.Style.Input
import AtomicStyle.Style.Parser

/-!
# Class items

The class names of a site as a sequence of groups, choices that are made at run time, and class
names that are known at run time only.  Adjacent static styles share a group, so that the later
declaration overrides the earlier one at build time.
-/

namespace AtomicStyle

/-- The class names that a site applies, from the lowest to the highest priority. -/
inductive ClassItems where
  | nil
  | group (g : RuleGroup) (rest : ClassItems)
  /-- Class names that apply when a test succeeds. -/
  | guarded (test : SourceRef) (body rest : ClassItems)
  | branch (test : SourceRef) (yes no rest : ClassItems)
  | passthrough (source : SourceRef) (rest : ClassItems)
deriving DecidableEq, Repr

namespace ClassItems

instance : Inhabited ClassItems := ⟨.nil⟩

/-- The items of one sequence after those of another. -/
def append : ClassItems → ClassItems → ClassItems
  | nil, other => other
  | group g rest, other => group g (rest.append other)
  | guarded test body rest, other => guarded test body (rest.append other)
  | branch test yes no rest, other => branch test yes no (rest.append other)
  | passthrough source rest, other => passthrough source (rest.append other)

instance : Append ClassItems := ⟨append⟩

/-- Every group, those inside choices included. -/
def groups : ClassItems → List RuleGroup
  | nil => []
  | group g rest => g :: rest.groups
  | guarded _ body rest => body.groups ++ rest.groups
  | branch _ yes no rest => yes.groups ++ no.groups ++ rest.groups
  | passthrough _ rest => rest.groups

/-- The groups that apply whatever the tests say. -/
def staticGroups : ClassItems → List RuleGroup
  | nil => []
  | group g rest => g :: rest.staticGroups
  | guarded _ _ rest | branch _ _ _ rest | passthrough _ rest => rest.staticGroups

/-- Whether there is nothing but groups. -/
def isStatic : ClassItems → Bool
  | nil => true
  | group _ rest => rest.isStatic
  | _ => false

/-! ## From inputs to items -/

variable {m : Type → Type} [Monad m]

/-- The item of a block that has been gathered; nothing for a block without rules. -/
def ofBlock (group : Block → m RuleGroup) (block : Block) : ExceptT CompileError m ClassItems := do
  if block.isEmpty then return nil
  let g ← (group block : m RuleGroup)
  return if g.isEmpty then nil else .group g nil

mutual

/-- The items of an input.  The way to get the group of a block is given. -/
def ofInput (group : Block → m RuleGroup) : StyleInput → ExceptT CompileError m ClassItems
  | .object entries => do
    let block ← MonadExcept.ofExcept entries.toBlock
    ofBlock group block
  | .css text refs span => do
    let block ← MonadExcept.ofExcept (CssText.parse text refs span)
    ofBlock group block
  | .list items => ofInputs group .nil items
  | .guarded test body => do
    let items ← ofInput group body
    return guarded test items nil
  | .branch test yes no => do
    let consequent ← ofInput group yes
    let alternate ← ofInput group no
    return branch test consequent alternate nil
  | .passthrough source => return passthrough source nil

/-- The items of inputs in a row, after a block that is still being gathered. -/
def ofInputs (group : Block → m RuleGroup) (gathered : Block) :
    List StyleInput → ExceptT CompileError m ClassItems
  | [] => ofBlock group gathered
  | .object entries :: rest => do
    let block ← MonadExcept.ofExcept entries.toBlock
    ofInputs group (gathered ++ block) rest
  | .css text refs span :: rest => do
    let block ← MonadExcept.ofExcept (CssText.parse text refs span)
    ofInputs group (gathered ++ block) rest
  | input :: rest => do
    let before ← ofBlock group gathered
    let items ← ofInput group input
    let after ← ofInputs group .nil rest
    return before ++ items ++ after

end

end ClassItems

end AtomicStyle
