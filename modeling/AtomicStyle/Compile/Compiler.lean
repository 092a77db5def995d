import AtomicStyle.Compile.Cache
import AtomicStyle.Compile.Source
import AtomicStyle.Style.Resolution

/-!
# The compiler

A unit is compiled site by site: the expression of a site is resolved, lowered to class items, and
replaced by an expression that composes them.  The rules of all sites form the stylesheet of the
unit.  An error leaves the unit as it is; warnings that came before it stay.
-/

namespace AtomicStyle

/-- A problem that was worked around. -/
inductive CompileWarning where
  | ignoredEntry (entry : RejectedEntry)
  | degradedImport (d : DegradedImport)
deriving DecidableEq, Repr

def CompileWarning.message : CompileWarning → String
  | ignoredEntry entry => entry.message
  | degradedImport d => d.message

/-- A unit after compilation. -/
structure CompileOutput where
  transformedSource : String
  groups : List RuleGroup := []
  /-- The texts of the unit's rules in stylesheet order. -/
  ruleTexts : List String := []
  sites : List SiteOutput := []
  errors : List CompileError := []
  warnings : List CompileWarning := []
deriving DecidableEq, Repr

def CompileOutput.isOk (output : CompileOutput) : Bool :=
  output.errors.isEmpty

/-- The stylesheet of several units. -/
structure Extraction where
  sheet : Sheet
  css : String
  report : SheetReport
  /-- The keys of the compression map that no rule uses. -/
  unusedKeys : List String

/-- The settings of a compilation and what its expressions depend on. -/
structure Compiler where
  options : Options
  env : Env

namespace Compiler

def salt (compiler : Compiler) : String :=
  compiler.options.classSalt.getD ""

/-! ## Groups -/

/-- The group of a block, without a cache. -/
def atomize (compiler : Compiler) (block : Block) : RuleGroup :=
  block.atomize compiler.salt

/-- The group of a block, from a cache that knows blocks by their digests, where the options allow
it. -/
def groupBy {δ : Type} [DecidableEq δ] (compiler : Compiler) (digest : Block → δ) (block : Block) :
    StateM (GroupCache δ) RuleGroup :=
  if compiler.options.cache then
    let key := CacheKey.of compiler.options.cacheSpace compiler.options.classSalt (digest block)
    GroupCache.getOrInsert key fun _ => compiler.atomize block
  else pure (compiler.atomize block)

/-- The group of a block, from the cache where the options allow it. -/
def group (compiler : Compiler) : Block → StateM GroupCache RuleGroup :=
  compiler.groupBy id

/-! ## Units -/

/-- Adds the warnings that are new. -/
def addWarnings (warnings : List CompileWarning) (more : List CompileWarning) :
    List CompileWarning :=
  more.foldl (fun all w => if all.contains w then all else all ++ [w]) warnings

/-- The warnings that come with the options. -/
def optionWarnings (compiler : Compiler) : List CompileWarning :=
  match compiler.options.compression with
  | some map => map.rejected.map .ignoredEntry
  | none => []

/-- The salt has to be an identifier. -/
def checkSalt (compiler : Compiler) : Except CompileError Unit :=
  match compiler.options.classSalt with
  | some salt => if ClassName.isIdentifier salt then .ok () else .error (.invalidClassSalt salt)
  | none => .ok ()

variable {m : Type → Type} [Monad m]

/-- The class items of sites in order.  Warnings are gathered on the way. -/
def siteItems (compiler : Compiler) (group : Block → m RuleGroup) (unit : SourceUnit) :
    List Site → ExceptT CompileError (StateT (List CompileWarning) m) (List (Span × ClassItems))
  | [] => return []
  | site :: sites => do
    let scope : Scope := ⟨compiler.env, unit⟩
    let (result, progress) := (scope.resolve site.input).run.run {}
    let input ← MonadExcept.ofExcept result
    modify fun warnings => addWarnings warnings (progress.degraded.map .degradedImport)
    let lowered ← (ClassItems.ofInput group input).run
    let items ← MonadExcept.ofExcept lowered
    let others ← siteItems compiler group unit sites
    return (site.span, items) :: others

/-- The output of a unit whose sites have the given items. -/
def output (compiler : Compiler) (unit : SourceUnit) (items : List (Span × ClassItems)) :
    CompileOutput :=
  let options := compiler.options
  let groups := items.flatMap (·.2.groups)
  let ruleTexts := (Sheet.ofGroups options.sorting groups).ruleTexts options.rendering
  let numbered := ruleNumbers ruleTexts
  let sites := items.map fun (span, items) => siteOutput options numbered span items
  { transformedSource := emitSource options unit.source sites ruleTexts
    groups
    ruleTexts
    sites }

/-- Compiles a unit, given the way to get the group of a block. -/
def compileWith (compiler : Compiler) (group : Block → m RuleGroup) (unit : SourceUnit) :
    m CompileOutput := do
  let compiled : ExceptT CompileError (StateT (List CompileWarning) m) CompileOutput := do
    MonadExcept.ofExcept compiler.checkSalt
    let items ← compiler.siteItems group unit unit.sites
    return compiler.output unit items
  let (result, warnings) ← compiled.run.run compiler.optionWarnings
  match result with
  | .ok output => return { output with warnings }
  | .error error =>
    return { transformedSource := unit.source, errors := [error], warnings }

/-- Compiles a unit with a cache that knows blocks by their digests. -/
def compileBy {δ : Type} [DecidableEq δ] (compiler : Compiler) (digest : Block → δ)
    (unit : SourceUnit) : StateM (GroupCache δ) CompileOutput :=
  compiler.compileWith (compiler.groupBy digest) unit

/-- Compiles a unit with a cache. -/
def compile (compiler : Compiler) (unit : SourceUnit) : StateM GroupCache CompileOutput :=
  compiler.compileWith compiler.group unit

/-- Compiles a unit without a cache. -/
def compileUncached (compiler : Compiler) (unit : SourceUnit) : CompileOutput :=
  Id.run (compiler.compileWith (m := Id) compiler.atomize unit)

/-- Compiles units in order with one cache. -/
def compileAll (compiler : Compiler) (units : List SourceUnit) :
    StateM GroupCache (List CompileOutput) :=
  units.mapM compiler.compile

/-! ## Extraction -/

/-- Merges the rules of compiled units into one stylesheet. -/
def extract (compiler : Compiler) (outputs : List CompileOutput) : Extraction :=
  let options := compiler.options
  let sheet := Sheet.ofGroups options.sorting (outputs.flatMap (·.groups))
  let names := sheet.rules.map AtomicRule.className
  { sheet
    css := sheet.toCss options.rendering
    report := sheet.report
    unusedKeys := (options.compression.map (·.unused names)).getD [] }

end Compiler

end AtomicStyle
