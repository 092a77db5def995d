import AtomicStyle.Style.Input
import AtomicStyle.Style.Parser
import AtomicStyle.Value.Evaluation

/-!
# Resolution of site expressions

The expression of a site becomes a style input.  Objects and templates are taken apart, so that the
values in them that are known only at run time become references; everything else is evaluated.
A local name that is bound to an object or a template is taken apart too, up to the depth to which
evaluation goes.

References are numbered in the order in which they are met, and an import that could not be
resolved is noted once for each place.  Both survive an error.
-/

namespace AtomicStyle

/-- What resolution has gathered: the number of the next reference and the imports left for run
time. -/
structure Progress where
  nextSlot : Nat := 0
  degraded : List DegradedImport := []

/-- A step of resolution. -/
abbrev Resolution (α : Type) := ExceptT CompileError (StateM Progress) α

/-- The styles that local names stand for, as inputs and as the entries of an object. -/
structure LocalStyles where
  input : String → Option (Resolution StyleInput)
  entries : String → Option (Resolution Entries)

/-- The expressions of one unit and the way to evaluate them. -/
structure Scope where
  env : Env
  unit : SourceUnit

namespace Scope

def evaluate (scope : Scope) (e : Expr) : Evaluated :=
  scope.env.evaluate scope.unit e

/-! ## References and notes -/

/-- Numbers a run-time expression. -/
def reference (scope : Scope) (e : Expr) : Resolution DynamicRef :=
  modifyGet fun progress =>
    (⟨SourceRef.of scope.unit e, progress.nextSlot⟩,
      { progress with nextSlot := progress.nextSlot + 1 })

/-- Notes an import that is left for run time. -/
def note (obstacle : Obstacle) (span : Span) : Resolution Unit :=
  match obstacle with
  | .unresolved specifier localName =>
    modify fun progress =>
      let degraded : DegradedImport := ⟨specifier, localName, span⟩
      if progress.degraded.contains degraded then progress
      else { progress with degraded := progress.degraded ++ [degraded] }
  | _ => pure ()

def refuse {α : Type} (fault : StyleFault) (span : Span) : Resolution α :=
  throw (.unsupportedStyle fault span)

/-- Whether a constant adds no styles. -/
def isAbsent : Value → Bool
  | .undefined | .null | .bool false => true
  | _ => false

/-! ## Leaves -/

/-- The input of an expression that is evaluated as a whole. -/
def evaluatedInput (scope : Scope) (e : Expr) : Resolution StyleInput :=
  match scope.evaluate e with
  | .ok value => MonadExcept.ofExcept (StyleInput.ofValue e.span value)
  | .error obstacle => do
    note obstacle e.span
    return .passthrough (SourceRef.of scope.unit e)

/-- The key of an entry, which has to be known; a fault stands at the key, or at the value where
the key has no place. -/
def computedKey (scope : Scope) (key : Expr) (valueSpan : Span) : Resolution String :=
  let span := if key.span.isNone then valueSpan else key.span
  match scope.evaluate key with
  | .ok value =>
    match value.key? with
    | some text => pure text
    | none => throw (.dynamicSelectorKey span)
  | .error (.unresolved specifier localName) =>
    throw (.unresolvableImport specifier localName span)
  | .error _ => throw (.dynamicSelectorKey span)

/-- The pieces of a template value: its parts so far and the text that has begun. -/
def templateParts (scope : Scope) (parts : List ValuePart) (text : String) :
    List String → List Expr → Resolution (List ValuePart × String)
  | [], _ => pure (parts, text)
  | piece :: pieces, [] => templateParts scope parts (text ++ piece) pieces []
  | piece :: pieces, hole :: holes =>
    let text := text ++ piece
    match scope.evaluate hole with
    | .ok value =>
      match value.text? with
      | some inner => templateParts scope parts (text ++ inner) pieces holes
      | none => refuse (.interpolatedValue value.typeName) hole.span
    | .error obstacle => do
      note obstacle hole.span
      let ref ← scope.reference hole
      let lead := if text.isEmpty then [] else [ValuePart.text text]
      templateParts scope (parts ++ lead ++ [.dynamic ref]) "" pieces holes

/-- What an entry holds, without its key and place. -/
inductive Held where
  | scalar (value : Value)
  | parts (value : List ValuePart)
  | block (body : Entries)

/-- The value of an entry that is written as a template. -/
def templateValue (scope : Scope) (pieces : List String) (holes : List Expr) :
    Resolution Held := do
  let (parts, text) ← scope.templateParts [] "" pieces holes
  if parts.isEmpty then return .scalar (.str text)
  else return .parts (if text.isEmpty then parts else parts ++ [.text text])

/-- The value of an entry that is evaluated as a whole. -/
def evaluatedValue (scope : Scope) (e : Expr) : Resolution Held :=
  match scope.evaluate e with
  | .ok (.object members) => pure (.block (Entries.ofMembers members))
  | .ok value =>
    if value.isFunction then return .parts [.dynamic (← scope.reference e)]
    else pure (.scalar value)
  | .error obstacle => do
    note obstacle e.span
    return .parts [.dynamic (← scope.reference e)]

/-- The text and the references of CSS text written as a template. -/
def cssText (scope : Scope) (text : String) (refs : List DynamicRef) :
    List String → List Expr → Resolution (String × List DynamicRef)
  | [], _ => pure (text, refs)
  | piece :: pieces, [] => cssText scope (text ++ piece) refs pieces []
  | piece :: pieces, hole :: holes =>
    let text := text ++ piece
    let marked : Resolution (String × List DynamicRef) := do
      let ref ← scope.reference hole
      cssText scope (text ++ CssText.marker refs.length) (refs ++ [ref]) pieces holes
    match scope.evaluate hole with
    | .ok (.object members) =>
      match Entries.cssText members with
      | .ok inner => cssText scope (text ++ inner) refs pieces holes
      | .error fault => refuse fault hole.span
    | .ok value =>
      if isAbsent value then cssText scope text refs pieces holes
      else if value.isFunction then marked
      else
        match value.text? with
        | some inner => cssText scope (text ++ inner) refs pieces holes
        | none => refuse (.interpolatedCss value.typeName) hole.span
    | .error obstacle => do
      note obstacle hole.span
      marked

/-- The entries of an object that is spread into another one and evaluated as a whole. -/
def evaluatedSpread (scope : Scope) (e : Expr) : Resolution Entries :=
  match scope.evaluate e with
  | .ok (.object members) => pure (Entries.ofMembers members)
  | .ok value => if isAbsent value then pure .nil else refuse (.spread value.typeName) e.span
  | .error obstacle => refuse (.spreadAtRunTime obstacle) e.span

/-- The entry that holds a value, before other entries. -/
def Held.entry (held : Held) (key : String) (span : Span) (rest : Entries) : Entries :=
  match held with
  | .scalar value => .scalar key span value rest
  | .parts value => .parts key span value rest
  | .block body => .block key span body rest

/-! ## Expressions -/

mutual

/-- The input that an expression gives, under the styles of local names. -/
def input (scope : Scope) (locals : LocalStyles) : Expr → Resolution StyleInput
  | .object _ members => do return .object (← entries scope locals members)
  | .template span pieces holes => do
    let (text, refs) ← cssText scope "" [] pieces holes
    return .css text refs span
  | .array _ items => do return .list (← inputs scope locals items)
  | .conditional _ test yes no =>
    match scope.evaluate test with
    | .ok value => if value.isTruthy then input scope locals yes else input scope locals no
    | .error obstacle => do
      note obstacle test.span
      let consequent ← input scope locals yes
      let alternate ← input scope locals no
      return .branch (SourceRef.of scope.unit test) consequent alternate
  | .logical _ .and left right =>
    match scope.evaluate left with
    | .ok value => if value.isTruthy then input scope locals right else pure .empty
    | .error obstacle => do
      note obstacle left.span
      let body ← input scope locals right
      return .guarded (SourceRef.of scope.unit left) body
  | .ident span name => (locals.input name).getD (evaluatedInput scope (.ident span name))
  | e => evaluatedInput scope e

/-- The inputs that expressions give, in order. -/
def inputs (scope : Scope) (locals : LocalStyles) : List Expr → Resolution (List StyleInput)
  | [] => pure []
  | e :: rest => do
    let first ← input scope locals e
    let others ← inputs scope locals rest
    return first :: others

/-- The entries that the members of an object give. -/
def entries (scope : Scope) (locals : LocalStyles) : List Member → Resolution Entries
  | [] => pure .nil
  | .named key e :: rest => do
    let held ← value scope locals e
    return held.entry key e.span (← entries scope locals rest)
  | .computed keyExpr e :: rest => do
    let key ← computedKey scope keyExpr e.span
    let held ← value scope locals e
    return held.entry key e.span (← entries scope locals rest)
  | .shorthand name :: rest => do
    let held ← evaluatedValue scope (.ident Span.none name)
    return held.entry name Span.none (← entries scope locals rest)
  | .spread e :: rest => do
    let first ← spread scope locals e
    return first ++ (← entries scope locals rest)

/-- What an entry with the given expression holds. -/
def value (scope : Scope) (locals : LocalStyles) : Expr → Resolution Held
  | .object _ members => do return .block (← entries scope locals members)
  | .template _ pieces holes => templateValue scope pieces holes
  | e => evaluatedValue scope e

/-- The entries that spreading an expression gives. -/
def spread (scope : Scope) (locals : LocalStyles) : Expr → Resolution Entries
  | .object _ members => entries scope locals members
  | .ident span name => (locals.entries name).getD (evaluatedSpread scope (.ident span name))
  | e => evaluatedSpread scope e

end

/-- The styles of local names, where names inside them may be followed `n - 1` times more. -/
def locals (scope : Scope) : Nat → LocalStyles
  | 0 => ⟨fun _ => none, fun _ => none⟩
  | n + 1 =>
    { input := fun name =>
        match scope.unit.bindings.get? name with
        | some (.object span members) => some (scope.input (locals scope n) (.object span members))
        | some (.template span pieces holes) =>
          some (scope.input (locals scope n) (.template span pieces holes))
        | _ => none
      entries := fun name =>
        match scope.unit.bindings.get? name with
        | some (.object _ members) => some (scope.entries (locals scope n) members)
        | _ => none }

/-- Resolves the expression of a site. -/
def resolve (scope : Scope) (e : Expr) : Resolution StyleInput :=
  scope.input (scope.locals Evaluation.maxDepth) e

end Scope

end AtomicStyle
