import AtomicStyle.Module.Graph
import AtomicStyle.Number.Reader
import AtomicStyle.Text.Blank
import AtomicStyle.Text.Measure
import AtomicStyle.Value.Helper
import AtomicStyle.Value.Obstacle

/-!
# Evaluation at build time

Expressions are reduced to constants where every input is known: literals, operators, templates,
objects and arrays, members of known values, bindings of the unit, exports of other units, calls of
single-expression functions and calls of helpers.

Following a binding, an export or a call goes one level down, and there are seventeen levels.
Within a level evaluation follows the structure of the expression.  So the evaluator is total,
whatever cycles the bindings and modules form.
-/

namespace AtomicStyle

/-- What evaluation depends on besides the unit. -/
structure Env where
  resolve : Resolver
  helpers : Helpers

/-- Where an expression is evaluated: in a unit, under local values. -/
structure Frame where
  unit : SourceUnit
  scope : Ordered Value

namespace Frame

/-- The frame of the constants of a unit. -/
def top (unit : SourceUnit) : Frame := ⟨unit, []⟩

/-- Whether a name is bound in the frame itself, not by an import. -/
def binds (frame : Frame) (name : String) : Bool :=
  frame.scope.has name || frame.unit.bindings.has name

end Frame

/-- The outcome of an evaluation. -/
abbrev Evaluated := Except Obstacle Value

/-- The three ways to evaluate on one level: an expression, a name, an export of a unit. -/
structure Level where
  eval : Frame → Expr → Evaluated
  name : Frame → String → Evaluated
  exported : SourceUnit → String → Evaluated

namespace Evaluation

/-- How many bindings, exports and calls may be open at once. -/
def maxDepth : Nat := 16

/-! ## Operators -/

def arithmetic (f : Float → Float → Float) : Value → Value → Evaluated
  | .num a, .num b => .ok (.num (f a b))
  | _, _ => .error (.unsupported .arithmeticOnNonNumbers)

/-- Sums of numbers; with a string on either side, the two texts in a row. -/
def add : Value → Value → Evaluated
  | .num a, .num b => .ok (.num (a + b))
  | left, right =>
    match left, right with
    | .str _, _ | _, .str _ =>
      match left.text?, right.text? with
      | some a, some b => .ok (.str (a ++ b))
      | _, _ => .error (.unsupported .concatenationWithObject)
    | _, _ => .error (.unsupported .additionOfNonNumbers)

/-- Equality without conversion, of values that are compared by content. -/
def strictEqual (left right : Value) : Except Obstacle Bool :=
  if left.isReference || right.isReference then .error (.unsupported .identityComparison)
  else .ok (left.equal false right)

def binary (op : BinaryOp) (left right : Value) : Evaluated :=
  match op with
  | .add => add left right
  | .sub => arithmetic (· - ·) left right
  | .mul => arithmetic (· * ·) left right
  | .div => arithmetic (· / ·) left right
  | .rem => arithmetic Number.remainder left right
  | .strictEq => (strictEqual left right).map .bool
  | .strictNe => (strictEqual left right).map fun equal => .bool (!equal)

def unary : UnaryOp → Value → Evaluated
  | .not, value => .ok (.bool (!value.isTruthy))
  | .neg, .num x => .ok (.num (-x))
  | .plus, .num x => .ok (.num x)
  | .plus, .str s => .ok (.num ((Number.read? (Text.trim s.toList)).getD (0.0 / 0.0)))
  | _, _ => .error (.unsupported .unaryOfNonNumber)

/-- Whether the left operand alone decides a logical operation. -/
def decides (op : LogicalOp) (left : Value) : Bool :=
  match op with
  | .and => !left.isTruthy
  | .or => left.isTruthy
  | .nullish => !left.isNullish

/-! ## Names, exports and members -/

/-- The value of a name that nothing binds. -/
def global (name : String) : Evaluated :=
  match name with
  | "undefined" => .ok .undefined
  | "NaN" => .ok (.num (0.0 / 0.0))
  | "Infinity" => .ok (.num (1.0 / 0.0))
  | _ => .error (.unbound name)

/-- The value of a name: a local value, a constant of the unit, an import, or a global. -/
def name (env : Env) (below : Level) (frame : Frame) (name : String) : Evaluated :=
  match frame.scope.get? name with
  | some value => .ok value
  | none =>
    match frame.unit.bindings.get? name with
    | some init => below.eval (Frame.top frame.unit) init
    | none =>
      match frame.unit.import? name with
      | none => global name
      | some i =>
        match env.resolve frame.unit i.source with
        | none => .error (.unresolved i.source i.localName)
        | some target =>
          match i.kind with
          | .named exported => below.exported target exported
          | .default => below.exported target "default"
          | .whole => .ok (.module target)

/-- The first export that gives the name itself. -/
def directExport? (env : Env) (below : Level) (unit : SourceUnit) (name : String) :
    List Export → Option Evaluated
  | [] => none
  | .binding exported localName :: rest =>
    if exported == name then some (below.name (Frame.top unit) localName)
    else directExport? env below unit name rest
  | .forwarded exported imported source :: rest =>
    if exported == name then
      match env.resolve unit source with
      | none => some (.error (.unresolved source name))
      | some target => some (below.exported target imported)
    else directExport? env below unit name rest
  | .all _ :: rest => directExport? env below unit name rest

/-- The name among the exports that are forwarded wholesale: the first module that has it. -/
def forwardedExport (env : Env) (below : Level) (unit : SourceUnit) (name : String) :
    List Export → Evaluated
  | [] => .error (.unresolved unit.path name)
  | .all source :: rest =>
    match env.resolve unit source with
    | none => .error (.unresolved source name)
    | some target =>
      match below.exported target name with
      | .ok value => .ok value
      | .error _ => forwardedExport env below unit name rest
  | _ :: rest => forwardedExport env below unit name rest

/-- The value that a unit exports under a name. -/
def exported (env : Env) (below : Level) (unit : SourceUnit) (name : String) : Evaluated :=
  match directExport? env below unit name unit.exports with
  | some result => result
  | none => forwardedExport env below unit name unit.exports

/-- A member of a value.  An array has its length and its items, a string its length in 16-bit
units, a module its exports. -/
def member (below : Level) (value : Value) (key : String) : Evaluated :=
  match value with
  | .object members => .ok ((Ordered.get? members key).getD .undefined)
  | .array items =>
    if key == "length" then .ok (.num (Float.ofNat items.length))
    else
      match Number.position? key.toList with
      | some i => .ok (items[i]?.getD .undefined)
      | none => .error (.unsupported .arrayMethod)
  | .str s =>
    if key == "length" then .ok (.num (Float.ofNat (Text.unitLength s.toList)))
    else .error .memberOfNonObject
  | .module unit => below.exported unit key
  | _ => .error .memberOfNonObject

/-- The key under which the callee of a call may be known as a helper.  Names bound in the frame
hide helpers. -/
def helperKey? (frame : Frame) : Expr → Option String
  | .ident _ name =>
    if frame.binds name then none
    else
      match frame.unit.import? name with
      | none => some name
      | some i =>
        match i.kind with
        | .named exported => some (i.source ++ ":" ++ exported)
        | .default => some (i.source ++ ":default")
        | .whole => none
  | .field _ (.ident _ name) property =>
    if frame.binds name then none
    else
      match frame.unit.import? name with
      | none => some (name ++ "." ++ property)
      | some i => if i.kind == .whole then some (i.source ++ ":" ++ property) else none
  | _ => none

/-- Calls a value with arguments; parameters without an argument are undefined. -/
def apply (below : Level) (callee : Value) (args : List Value) : Evaluated :=
  match callee with
  | .function params body unit scope =>
    let values := params.zipIdx.map fun (param, i) => (param, args[i]?.getD .undefined)
    below.eval ⟨unit, Ordered.putAll scope values⟩ body
  | _ => .error .unknownCall

/-! ## Expressions -/

mutual

/-- The value of an expression, given the level below. -/
def eval (env : Env) (below : Level) (frame : Frame) : Expr → Evaluated
  | .str _ value => .ok (.str value)
  | .num _ value => .ok (.num value)
  | .bool _ value => .ok (.bool value)
  | .null _ => .ok .null
  | .ident _ identifier => name env below frame identifier
  | .field _ target property => do
    let value ← eval env below frame target
    member below value property
  | .index _ target key => do
    let value ← eval env below frame target
    match eval env below frame key with
    | .error obstacle => .error obstacle.ofKey
    | .ok keyValue =>
      match keyValue.key? with
      | some property => member below value property
      | none => .error .computedKey
  | .call _ callee args =>
    match (helperKey? frame callee).bind env.helpers with
    | some helper => do
      let values ← (evalAll env below frame args).mapError Obstacle.ofArgument
      match helper values with
      | some value => .ok value
      | none => .error .unknownCall
    | none => do
      let function ← (eval env below frame callee).mapError Obstacle.ofCallee
      if function.isFunction then
        let values ← (evalAll env below frame args).mapError Obstacle.ofArgument
        apply below function values
      else .error .unknownCall
  | .binary _ op left right => do
    let a ← eval env below frame left
    let b ← eval env below frame right
    binary op a b
  | .unary _ op arg => do
    let value ← eval env below frame arg
    unary op value
  | .template _ texts holes => do
    let text ← evalTemplate env below frame texts holes
    .ok (.str text)
  | .object _ members => do
    let values ← evalMembers env below frame [] members
    .ok (.object values)
  | .array _ items => do
    let values ← evalAll env below frame items
    .ok (.array values)
  | .function _ params body => .ok (.function params body frame.unit frame.scope)
  | .conditional _ test yes no => do
    let value ← eval env below frame test
    if value.isTruthy then eval env below frame yes else eval env below frame no
  | .logical _ op left right => do
    let value ← eval env below frame left
    if decides op value then .ok value else eval env below frame right

/-- The values of expressions in order; the first obstacle ends it. -/
def evalAll (env : Env) (below : Level) (frame : Frame) : List Expr → Except Obstacle (List Value)
  | [] => .ok []
  | e :: rest => do
    let value ← eval env below frame e
    let values ← evalAll env below frame rest
    .ok (value :: values)

/-- The text of a template.  An expression without a text before it is not evaluated. -/
def evalTemplate (env : Env) (below : Level) (frame : Frame) (texts : List String) :
    List Expr → Except Obstacle String
  | [] => .ok (String.join texts)
  | hole :: holes =>
    match texts with
    | [] => .ok ""
    | text :: texts => do
      let value ← eval env below frame hole
      match value.text? with
      | none => .error (.unsupported .objectInTemplate)
      | some inner => do
        let rest ← evalTemplate env below frame texts holes
        .ok (text ++ inner ++ rest)

/-- The members of an object literal, written one after the other. -/
def evalMembers (env : Env) (below : Level) (frame : Frame) (written : Ordered Value) :
    List Member → Except Obstacle (Ordered Value)
  | [] => .ok written
  | .named key e :: rest => do
    let value ← eval env below frame e
    evalMembers env below frame (written.put key value) rest
  | .computed key e :: rest => do
    let keyValue ← eval env below frame key
    match keyValue.key? with
    | none => .error .computedKey
    | some property => do
      let value ← eval env below frame e
      evalMembers env below frame (written.put property value) rest
  | .shorthand identifier :: rest => do
    let value ← name env below frame identifier
    evalMembers env below frame (written.put identifier value) rest
  | .spread source :: rest => do
    let value ← eval env below frame source
    match value with
    | .object members => evalMembers env below frame (written.putAll members) rest
    | .undefined | .null => evalMembers env below frame written rest
    | _ => .error (.unsupported .spreadOfNonObject)

end

/-! ## Levels -/

/-- A level below all others, on which nothing is evaluated. -/
def floor : Level where
  eval _ _ := .error .tooDeep
  name _ _ := .error .tooDeep
  exported _ _ := .error .tooDeep

/-- The level above `below`. -/
def above (env : Env) (below : Level) : Level where
  eval := eval env below
  name := name env below
  exported := exported env below

/-- The level from which `n` more may be opened.  On the last one names are still looked up, but
no expression and no export is evaluated. -/
def level (env : Env) : Nat → Level
  | 0 => { floor with name := name env floor }
  | n + 1 => above env (level env n)

end Evaluation

/-- The value of an expression of a unit. -/
def Env.evaluate (env : Env) (unit : SourceUnit) (e : Expr) : Evaluated :=
  (Evaluation.level env (Evaluation.maxDepth + 1)).eval (Frame.top unit) e

end AtomicStyle
