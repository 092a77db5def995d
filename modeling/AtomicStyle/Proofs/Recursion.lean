import AtomicStyle.Proofs.Depth

/-!
# The recursion of evaluation

Evaluation follows bindings, exports and calls, and these may lead in a circle: modules import
each other, constants mention themselves, functions call themselves.  The levels of
`Evaluation.level` rule this out by construction.  Here the same recursion is written as it runs,
without levels: each function calls the others, and a depth is counted up along bindings, exports
and calls and checked where an expression or an export is evaluated.

The recursion is the least solution of its equations in a monad in which a computation may fail to
end, so that nothing is presupposed about where it leads.  That it ends is shown by induction on
the levels that are left, and within a level by induction on the expression.

Results:
1. `ends_above`: if the recursion ends one level down as `below` does, it ends as the level above.
2. `ends_atDepth`: at every depth the recursion ends as the level of this depth.
-/

namespace AtomicStyle

/-! ## Runs -/

/-- An expression that is met, and how many bindings, exports and calls are open around it; in
resolution, how many local names. -/
structure Visit where
  depth : Nat
  node : Expr

/-- A computation that logs the expressions it meets; `none` is one that does not end. -/
abbrev Logged (α : Type) := StateT (List Visit) Option α

namespace Logged

variable {α β : Type}

/-- Logs an expression. -/
def visit (depth : Nat) (node : Expr) : Logged Unit :=
  modify (· ++ [⟨depth, node⟩])

/-- The computation ends with a result, and what it meets is nowhere too deep. -/
def Ends (run : Logged α) (result : α) : Prop :=
  ∀ log, ∃ visits, run.run log = some (result, log ++ visits) ∧
    ∀ visit ∈ visits, visit.depth ≤ Evaluation.maxDepth

theorem Ends.pure (result : α) : Ends (pure result) result :=
  fun log => ⟨[], by rw [List.append_nil]; rfl, List.forall_mem_nil _⟩

theorem Ends.bind {run : Logged α} {result : α} (h : Ends run result) {next : α → Logged β}
    {last : β} (hnext : Ends (next result) last) : Ends (run >>= next) last := by
  intro log
  obtain ⟨visits, hrun, hvisits⟩ := h log
  obtain ⟨visits', hrun', hvisits'⟩ := hnext (log ++ visits)
  refine ⟨visits ++ visits', ?_, List.forall_mem_append.mpr ⟨hvisits, hvisits'⟩⟩
  rw [StateT.run_bind, hrun, ← List.append_assoc]
  exact hrun'

end Logged

/-- A run of evaluation. -/
abbrev Run (α : Type) := ExceptT Obstacle Logged α

namespace Run

variable {α β : Type}

/-- The run ends with a constant or an obstacle. -/
def Ends (run : Run α) (result : Except Obstacle α) : Prop :=
  Logged.Ends run.run result

theorem Ends.ok (value : α) : Ends (pure value) (.ok value) :=
  Logged.Ends.pure _

theorem Ends.error (obstacle : Obstacle) : Ends (throw obstacle : Run α) (.error obstacle) :=
  Logged.Ends.pure _

theorem Ends.ofExcept (result : Except Obstacle α) :
    Ends (MonadExcept.ofExcept result) result := by
  cases result with
  | ok value => exact .ok value
  | error obstacle => exact .error obstacle

theorem Ends.bind {run : Run α} {result : Except Obstacle α} (h : Ends run result)
    {next : α → Run β} {last : α → Except Obstacle β}
    (hnext : ∀ value, Ends (next value) (last value)) :
    Ends (run >>= next) (result >>= last) := by
  refine Logged.Ends.bind h ?_
  cases result with
  | ok value => exact hnext value
  | error obstacle => exact .pure _

theorem Ends.translate {run : Run α} {result : Except Obstacle α} (h : Ends run result)
    (f : Except Obstacle α → Except Obstacle β) :
    Ends (show Logged (Except Obstacle β) from do return f (← run.run)) (f result) :=
  Logged.Ends.bind h (.pure _)

theorem Ends.visit {depth : Nat} (h : depth ≤ Evaluation.maxDepth) (node : Expr) {run : Run α}
    {result : Except Obstacle α} (hrun : Ends run result) :
    Ends (do Logged.visit depth node; run) result := by
  have hvisit : Ends (liftM (Logged.visit depth node) : Run Unit) (.ok ()) :=
    fun _ => ⟨[⟨depth, node⟩], rfl, List.forall_mem_singleton.mpr h⟩
  exact hvisit.bind fun _ => hrun

end Run

/-! ## The recursion of evaluation -/

/-- The property that a key inside brackets names. -/
def Evaluation.property : Evaluated → Except Obstacle String
  | .error obstacle => .error obstacle.ofKey
  | .ok value =>
    match value.key? with
    | some text => .ok text
    | none => .error .computedKey

theorem Evaluation.eval_index (env : Env) (below : Level) (frame : Frame) (span : Span)
    (target key : Expr) :
    eval env below frame (.index span target key) = (do
      let value ← eval env below frame target
      let text ← property (eval env below frame key)
      member below value text) := by
  simp only [eval]
  congr 1
  funext value
  cases eval env below frame key with
  | error obstacle => rfl
  | ok keyValue =>
    simp only [property]
    cases keyValue.key? <;> rfl

namespace Env

open Evaluation

-- The functions follow those of `Evaluation`.  Where an obstacle is renamed or passed over, the run
-- is taken as a logged computation, in which obstacles are results.

mutual

/-- Evaluates an expression inside `depth` bindings, exports and calls. -/
def evalAt (env : Env) (depth : Nat) (frame : Frame) (e : Expr) : Run Value :=
  if maxDepth < depth then throw .tooDeep
  else do
    Logged.visit depth e
    match e with
    | .str _ value => return .str value
    | .num _ value => return .num value
    | .bool _ value => return .bool value
    | .null _ => return .null
    | .ident _ identifier => env |>.nameAt depth frame identifier
    | .field _ target property => do
      let value ← env |>.evalAt depth frame target
      env |>.memberAt depth value property
    | .index _ target key => do
      let value ← env |>.evalAt depth frame target
      let property ← env |>.keyAt depth frame key
      env |>.memberAt depth value property
    | .call _ callee args =>
      match (helperKey? frame callee).bind env.helpers with
      | some helper => do
        let values ← env |>.argsAt depth frame args
        match helper values with
        | some value => return value
        | none => throw .unknownCall
      | none => do
        let function ← env |>.calleeAt depth frame callee
        if function.isFunction then
          let values ← env |>.argsAt depth frame args
          env |>.applyAt depth function values
        else throw .unknownCall
    | .binary _ op left right => do
      let a ← env |>.evalAt depth frame left
      let b ← env |>.evalAt depth frame right
      MonadExcept.ofExcept (binary op a b)
    | .unary _ op arg => do
      let value ← env |>.evalAt depth frame arg
      MonadExcept.ofExcept (unary op value)
    | .template _ texts holes => do
      let text ← env |>.templateAt depth frame texts holes
      return .str text
    | .object _ members => do
      let values ← env |>.membersAt depth frame [] members
      return .object values
    | .array _ items => do
      let values ← env |>.allAt depth frame items
      return .array values
    | .function _ params body => return .function params body frame.unit frame.scope
    | .conditional _ test yes no => do
      let value ← env |>.evalAt depth frame test
      if value.isTruthy then env |>.evalAt depth frame yes else env |>.evalAt depth frame no
    | .logical _ op left right => do
      let value ← env |>.evalAt depth frame left
      if decides op value then return value else env |>.evalAt depth frame right
partial_fixpoint

/-- Evaluates expressions in order. -/
def allAt (env : Env) (depth : Nat) (frame : Frame) (items : List Expr) : Run (List Value) :=
  match items with
  | [] => return []
  | e :: rest => do
    let value ← env |>.evalAt depth frame e
    let values ← env |>.allAt depth frame rest
    return value :: values
partial_fixpoint

/-- Evaluates a template. -/
def templateAt (env : Env) (depth : Nat) (frame : Frame) (texts : List String)
    (holes : List Expr) : Run String :=
  match holes, texts with
  | [], texts => return String.join texts
  | _ :: _, [] => return ""
  | hole :: holes, text :: texts => do
    let value ← env |>.evalAt depth frame hole
    match value.text? with
    | none => throw (.unsupported .objectInTemplate)
    | some inner => do
      let rest ← env |>.templateAt depth frame texts holes
      return text ++ inner ++ rest
partial_fixpoint

/-- Evaluates the members of an object literal. -/
def membersAt (env : Env) (depth : Nat) (frame : Frame) (written : Ordered Value)
    (members : List Member) : Run (Ordered Value) :=
  match members with
  | [] => return written
  | .named key e :: rest => do
    let value ← env |>.evalAt depth frame e
    env |>.membersAt depth frame (written.put key value) rest
  | .computed key e :: rest => do
    let keyValue ← env |>.evalAt depth frame key
    match keyValue.key? with
    | none => throw .computedKey
    | some property => do
      let value ← env |>.evalAt depth frame e
      env |>.membersAt depth frame (written.put property value) rest
  | .shorthand identifier :: rest => do
    let value ← env |>.nameAt depth frame identifier
    env |>.membersAt depth frame (written.put identifier value) rest
  | .spread source :: rest => do
    let value ← env |>.evalAt depth frame source
    match value with
    | .object members => env |>.membersAt depth frame (written.putAll members) rest
    | .undefined | .null => env |>.membersAt depth frame written rest
    | _ => throw (.unsupported .spreadOfNonObject)
partial_fixpoint

/-- Follows a name. -/
def nameAt (env : Env) (depth : Nat) (frame : Frame) (identifier : String) : Run Value :=
  match frame.scope.get? identifier with
  | some value => return value
  | none =>
    match frame.unit.bindings.get? identifier with
    | some init => env |>.evalAt (depth + 1) (Frame.top frame.unit) init
    | none =>
      match frame.unit.import? identifier with
      | none => MonadExcept.ofExcept (global identifier)
      | some i =>
        match env.resolve frame.unit i.source with
        | none => throw (.unresolved i.source i.localName)
        | some target =>
          match i.kind with
          | .named exported => env |>.exportedAt (depth + 1) target exported
          | .default => env |>.exportedAt (depth + 1) target "default"
          | .whole => return .module target
partial_fixpoint

/-- Follows an export of a unit. -/
def exportedAt (env : Env) (depth : Nat) (unit : SourceUnit) (key : String) : Run Value :=
  if maxDepth < depth then throw .tooDeep
  else env |>.directAt depth unit key unit.exports
partial_fixpoint

/-- Looks for an export under its name, and then among the modules that are exported wholesale. -/
def directAt (env : Env) (depth : Nat) (unit : SourceUnit) (key : String)
    (exports : List Export) : Run Value :=
  match exports with
  | [] => env |>.wholesaleAt depth unit key unit.exports
  | .binding exported localName :: rest =>
    if exported == key then env |>.nameAt (depth + 1) (Frame.top unit) localName
    else env |>.directAt depth unit key rest
  | .forwarded exported imported source :: rest =>
    if exported == key then
      match env.resolve unit source with
      | none => throw (.unresolved source key)
      | some target => env |>.exportedAt (depth + 1) target imported
    else env |>.directAt depth unit key rest
  | .all _ :: rest => env |>.directAt depth unit key rest
partial_fixpoint

/-- Asks the modules that are exported wholesale in turn. -/
def wholesaleAt (env : Env) (depth : Nat) (unit : SourceUnit) (key : String)
    (exports : List Export) : Run Value :=
  match exports with
  | [] => throw (.unresolved unit.path key)
  | .all source :: rest =>
    match env.resolve unit source with
    | none => throw (.unresolved source key)
    | some target => show Logged (Except Obstacle Value) from do
      match ← (env |>.exportedAt (depth + 1) target key).run with
      | .ok value => return .ok value
      | .error _ => (env |>.wholesaleAt depth unit key rest).run
  | _ :: rest => env |>.wholesaleAt depth unit key rest
partial_fixpoint

/-- Takes a member of a value. -/
def memberAt (env : Env) (depth : Nat) (value : Value) (key : String) : Run Value :=
  match value with
  | .module unit => env |>.exportedAt (depth + 1) unit key
  | other => MonadExcept.ofExcept (member floor other key)
partial_fixpoint

/-- Calls a value. -/
def applyAt (env : Env) (depth : Nat) (callee : Value) (args : List Value) : Run Value :=
  match callee with
  | .function params body unit scope =>
    let values := params.zipIdx.map fun (param, i) => (param, args[i]?.getD .undefined)
    env |>.evalAt (depth + 1) ⟨unit, Ordered.putAll scope values⟩ body
  | _ => throw .unknownCall
partial_fixpoint

/-- Evaluates a key inside brackets. -/
def keyAt (env : Env) (depth : Nat) (frame : Frame) (key : Expr) : Run String :=
  show Logged (Except Obstacle String) from do
    return property (← (env |>.evalAt depth frame key).run)
partial_fixpoint

/-- Evaluates what is called. -/
def calleeAt (env : Env) (depth : Nat) (frame : Frame) (callee : Expr) : Run Value :=
  show Logged (Except Obstacle Value) from do
    return (← (env |>.evalAt depth frame callee).run).mapError Obstacle.ofCallee
partial_fixpoint

/-- Evaluates the arguments of a call. -/
def argsAt (env : Env) (depth : Nat) (frame : Frame) (args : List Expr) : Run (List Value) :=
  show Logged (Except Obstacle (List Value)) from do
    return (← (env |>.allAt depth frame args).run).mapError Obstacle.ofArgument
partial_fixpoint

end

/-! ## Evaluation ends -/

/-- At some depth the runs end as on a level. -/
structure LevelEnds (env : Env) (depth : Nat) (level : Level) : Prop where
  eval (frame : Frame) (e : Expr) : (evalAt env depth frame e).Ends (level.eval frame e)
  name (frame : Frame) (identifier : String) :
    (nameAt env depth frame identifier).Ends (level.name frame identifier)
  exported (unit : SourceUnit) (key : String) :
    (exportedAt env depth unit key).Ends (level.exported unit key)

section Steps

variable {env : Env} {depth : Nat} {below : Level}

theorem ends_name
    (heval : ∀ frame e, (evalAt env (depth + 1) frame e).Ends (below.eval frame e))
    (hexported : ∀ unit key, (exportedAt env (depth + 1) unit key).Ends (below.exported unit key))
    (frame : Frame) (identifier : String) :
    (nameAt env depth frame identifier).Ends (name env below frame identifier) := by
  rw [nameAt, name]
  cases frame.scope.get? identifier with
  | some value => exact .ok value
  | none =>
    cases frame.unit.bindings.get? identifier with
    | some init => exact heval _ init
    | none =>
      cases frame.unit.import? identifier with
      | none => exact .ofExcept _
      | some i =>
        dsimp only
        cases env.resolve frame.unit i.source with
        | none => exact .error _
        | some target =>
          cases i.kind with
          | named exported => exact hexported target exported
          | default => exact hexported target "default"
          | whole => exact .ok _

theorem ends_wholesale (h : LevelEnds env (depth + 1) below) (unit : SourceUnit) (key : String)
    (exports : List Export) :
    (wholesaleAt env depth unit key exports).Ends (forwardedExport env below unit key exports) := by
  induction exports with
  | nil =>
    rw [wholesaleAt.eq_def]
    exact .error _
  | cons e rest ih =>
    rw [wholesaleAt.eq_def]
    cases e with
    | binding exported localName => exact ih
    | forwarded exported imported source => exact ih
    | all source =>
      simp only [forwardedExport]
      cases env.resolve unit source with
      | none => exact .error _
      | some target =>
        refine Logged.Ends.bind (h.exported target key) ?_
        dsimp only
        cases below.exported target key with
        | ok value => exact .pure _
        | error obstacle => exact ih

theorem ends_direct (h : LevelEnds env (depth + 1) below) (unit : SourceUnit) (key : String)
    (exports : List Export) :
    (directAt env depth unit key exports).Ends
      ((directExport? env below unit key exports).getD
        (forwardedExport env below unit key unit.exports)) := by
  induction exports with
  | nil =>
    rw [directAt.eq_def]
    exact ends_wholesale h unit key unit.exports
  | cons e rest ih =>
    rw [directAt.eq_def]
    cases e with
    | binding exported localName =>
      simp only [directExport?]
      split
      · exact h.name _ localName
      · exact ih
    | forwarded exported imported source =>
      simp only [directExport?]
      split
      · cases env.resolve unit source with
        | none => exact .error _
        | some target => exact h.exported target imported
      · exact ih
    | all source => exact ih

theorem ends_exported (hdepth : depth ≤ maxDepth) (h : LevelEnds env (depth + 1) below)
    (unit : SourceUnit) (key : String) :
    (exportedAt env depth unit key).Ends (exported env below unit key) := by
  have hexported : exported env below unit key =
      (directExport? env below unit key unit.exports).getD
        (forwardedExport env below unit key unit.exports) := by
    unfold exported
    cases directExport? env below unit key unit.exports <;> rfl
  rw [exportedAt, if_neg (Nat.not_lt.mpr hdepth), hexported]
  exact ends_direct h unit key unit.exports

theorem ends_member (h : LevelEnds env (depth + 1) below) (value : Value) (key : String) :
    (memberAt env depth value key).Ends (member below value key) := by
  rw [memberAt.eq_def]
  cases value with
  | module unit => exact h.exported unit key
  | _ => exact .ofExcept _

theorem ends_apply (h : LevelEnds env (depth + 1) below) (callee : Value) (args : List Value) :
    (applyAt env depth callee args).Ends (apply below callee args) := by
  rw [applyAt.eq_def]
  cases callee with
  | function params body unit scope => exact h.eval _ body
  | _ => exact .error _

mutual

theorem ends_eval (hdepth : depth ≤ maxDepth) (h : LevelEnds env (depth + 1) below) (frame : Frame)
    (e : Expr) : (evalAt env depth frame e).Ends (eval env below frame e) := by
  rw [evalAt.eq_def, if_neg (Nat.not_lt.mpr hdepth)]
  refine .visit hdepth e ?_
  cases e with
  | str span value => exact .ok _
  | num span value => exact .ok _
  | bool span value => exact .ok _
  | null span => exact .ok _
  | ident span identifier => exact ends_name h.eval h.exported frame identifier
  | field span target property =>
    simp only [eval]
    refine (ends_eval hdepth h frame target).bind fun value => ?_
    exact ends_member h value property
  | index span target key =>
    rw [eval_index]
    refine (ends_eval hdepth h frame target).bind fun value => ?_
    refine Run.Ends.bind ?_ fun text => ends_member h value text
    rw [keyAt.eq_def]
    exact (ends_eval hdepth h frame key).translate property
  | call span callee args =>
    have hargs : (argsAt env depth frame args).Ends
        ((evalAll env below frame args).mapError Obstacle.ofArgument) := by
      rw [argsAt.eq_def]
      exact (ends_all hdepth h frame args).translate _
    simp only [eval]
    cases (helperKey? frame callee).bind env.helpers with
    | some helper =>
      refine hargs.bind fun values => ?_
      cases helper values with
      | some value => exact .ok value
      | none => exact .error _
    | none =>
      have hcallee : (calleeAt env depth frame callee).Ends
          ((eval env below frame callee).mapError Obstacle.ofCallee) := by
        rw [calleeAt.eq_def]
        exact (ends_eval hdepth h frame callee).translate _
      refine hcallee.bind fun function => ?_
      split
      · exact hargs.bind fun values => ends_apply h function values
      · exact .error _
  | binary span op left right =>
    simp only [eval]
    refine (ends_eval hdepth h frame left).bind fun a => ?_
    refine (ends_eval hdepth h frame right).bind fun b => ?_
    exact .ofExcept _
  | unary span op arg =>
    simp only [eval]
    refine (ends_eval hdepth h frame arg).bind fun value => ?_
    exact .ofExcept _
  | template span texts holes =>
    simp only [eval]
    exact (ends_template hdepth h frame texts holes).bind fun text => .ok _
  | object span members =>
    simp only [eval]
    exact (ends_members hdepth h frame [] members).bind fun values => .ok _
  | array span items =>
    simp only [eval]
    exact (ends_all hdepth h frame items).bind fun values => .ok _
  | function span params body => exact .ok _
  | conditional span test yes no =>
    simp only [eval]
    refine (ends_eval hdepth h frame test).bind fun value => ?_
    split
    · exact ends_eval hdepth h frame yes
    · exact ends_eval hdepth h frame no
  | logical span op left right =>
    simp only [eval]
    refine (ends_eval hdepth h frame left).bind fun value => ?_
    split
    · exact .ok value
    · exact ends_eval hdepth h frame right

theorem ends_all (hdepth : depth ≤ maxDepth) (h : LevelEnds env (depth + 1) below) (frame : Frame)
    (items : List Expr) : (allAt env depth frame items).Ends (evalAll env below frame items) := by
  rw [allAt.eq_def]
  cases items with
  | nil => exact .ok _
  | cons e rest =>
    simp only [evalAll]
    refine (ends_eval hdepth h frame e).bind fun value => ?_
    exact (ends_all hdepth h frame rest).bind fun values => .ok _

theorem ends_template (hdepth : depth ≤ maxDepth) (h : LevelEnds env (depth + 1) below)
    (frame : Frame) (texts : List String) (holes : List Expr) :
    (templateAt env depth frame texts holes).Ends (evalTemplate env below frame texts holes) := by
  rw [templateAt.eq_def]
  cases holes with
  | nil => exact .ok _
  | cons hole holes =>
    cases texts with
    | nil => exact .ok _
    | cons text texts =>
      simp only [evalTemplate]
      refine (ends_eval hdepth h frame hole).bind fun value => ?_
      cases value.text? with
      | none => exact .error _
      | some inner => exact (ends_template hdepth h frame texts holes).bind fun rest => .ok _

theorem ends_members (hdepth : depth ≤ maxDepth) (h : LevelEnds env (depth + 1) below)
    (frame : Frame) (written : Ordered Value) (members : List Member) :
    (membersAt env depth frame written members).Ends
      (evalMembers env below frame written members) := by
  rw [membersAt.eq_def]
  cases members with
  | nil => exact .ok _
  | cons member rest =>
    cases member with
    | named key e =>
      simp only [evalMembers]
      refine (ends_eval hdepth h frame e).bind fun value => ?_
      exact ends_members hdepth h frame _ rest
    | computed key e =>
      simp only [evalMembers]
      refine (ends_eval hdepth h frame key).bind fun keyValue => ?_
      cases keyValue.key? with
      | none => exact .error _
      | some property =>
        refine (ends_eval hdepth h frame e).bind fun value => ?_
        exact ends_members hdepth h frame _ rest
    | shorthand identifier =>
      simp only [evalMembers]
      refine (ends_name h.eval h.exported frame identifier).bind fun value => ?_
      exact ends_members hdepth h frame _ rest
    | spread source =>
      simp only [evalMembers]
      refine (ends_eval hdepth h frame source).bind fun value => ?_
      cases value with
      | object members => exact ends_members hdepth h frame _ rest
      | undefined | null => exact ends_members hdepth h frame _ rest
      | _ => exact .error _

end

end Steps

theorem ends_above {env : Env} {depth : Nat} (hdepth : depth ≤ maxDepth) {below : Level}
    (h : LevelEnds env (depth + 1) below) : LevelEnds env depth (above env below) :=
  ⟨ends_eval hdepth h, ends_name h.eval h.exported, ends_exported hdepth h⟩

theorem ends_eval_of_lt {env : Env} {depth : Nat} (h : maxDepth < depth) (frame : Frame) (e : Expr) :
    (evalAt env depth frame e).Ends (.error .tooDeep) := by
  rw [evalAt.eq_def, if_pos h]
  exact .error _

theorem ends_exported_of_lt {env : Env} {depth : Nat} (h : maxDepth < depth) (unit : SourceUnit)
    (key : String) : (exportedAt env depth unit key).Ends (.error .tooDeep) := by
  rw [exportedAt.eq_def, if_pos h]
  exact .error _

/-- At every depth the runs end as on the level of this depth. -/
theorem ends_atDepth (env : Env) (depth : Nat) : LevelEnds env depth (atDepth env depth) := by
  unfold atDepth
  generalize hlevels : maxDepth + 1 - depth = levels
  induction levels generalizing depth with
  | zero =>
    -- no check stops a name here, but what it leads to is stopped at once
    have hdepth : maxDepth < depth := by omega
    have hnext : maxDepth < depth + 1 := by omega
    exact ⟨ends_eval_of_lt hdepth,
      @ends_name env depth floor (ends_eval_of_lt hnext) (ends_exported_of_lt hnext),
      ends_exported_of_lt hdepth⟩
  | succ levels ih => exact ends_above (by omega) (ih (depth + 1) (by omega))

theorem ends_evaluate (env : Env) (unit : SourceUnit) (e : Expr) :
    (evalAt env 0 (Frame.top unit) e).Ends (env.evaluate unit e) :=
  (ends_atDepth env 0).eval (Frame.top unit) e

end Env

end AtomicStyle
