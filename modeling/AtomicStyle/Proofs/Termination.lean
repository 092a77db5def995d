import AtomicStyle.Proofs.Recursion
import AtomicStyle.Style.Resolution

/-!
# Evaluation and resolution end

Resolution takes the objects and templates of a site apart, follows local names that are bound to
such, and evaluates everything else.  A local name may be bound to an object that spreads the name
itself, so resolution counts the names that are open, and follows none at the greatest depth.

As for evaluation, the recursion is written as it runs, with a depth that is counted up.
Evaluations take place inside it, each from depth zero.  A template evaluates its expressions up
to one that it refuses; here it evaluates all of them, so that the run is at least as long.

Results:
1. `ends_locals`: following a local name ends as `Scope.locals` says.
2. `evaluation_and_resolution_end`: both recursions end, with the results of `Env.evaluate` and
   `Scope.resolve`.
-/

namespace AtomicStyle

/-! ## The recursion of resolution -/

/-- A run of resolution. -/
abbrev Resolving (α : Type) := ExceptT CompileError (StateT Progress Logged) α

namespace Resolving

variable {α β : Type}

/-- The run ends as a resolution does, whatever was gathered before. -/
def Ends (run : Resolving α) (resolution : Resolution α) : Prop :=
  ∀ progress, Logged.Ends (run.run.run progress) (resolution.run.run progress).run

/-- A step that meets no expression. -/
def ofResolution (resolution : Resolution α) : Resolving α :=
  ExceptT.mk fun progress => pure (resolution.run.run progress).run

theorem Ends.ofResolution (resolution : Resolution α) :
    Ends (ofResolution resolution) resolution :=
  fun _ => .pure _

theorem Ends.pure (value : α) : Ends (pure value) (pure value) :=
  fun _ => .pure _

theorem Ends.bind {run : Resolving α} {resolution : Resolution α} (h : Ends run resolution)
    {next : α → Resolving β} {last : α → Resolution β}
    (hnext : ∀ value, Ends (next value) (last value)) :
    Ends (run >>= next) (resolution >>= last) := by
  intro progress
  rw [ExceptT.run_bind, StateT.run_bind, ExceptT.run_bind, StateT.run_bind, Id.run_bind]
  refine Logged.Ends.bind (h progress) ?_
  obtain ⟨result, gathered⟩ := (resolution.run.run progress).run
  cases result with
  | ok value => exact hnext value gathered
  | error fault => exact .pure _

end Resolving

namespace Scope

open Evaluation (maxDepth)
open Resolving (ofResolution)

/-- Evaluates an expression of the site. -/
def evaluation (scope : Scope) (e : Expr) : Resolving Evaluated :=
  ExceptT.mk fun progress => do
    let result ← (scope.env.evalAt 0 (Frame.top scope.unit) e).run
    return (.ok result, progress)

/-- A step that evaluates some expressions, and is what they come to. -/
def step {α : Type} (scope : Scope) (resolution : Resolution α) : List Expr → Resolving α
  | [] => ofResolution resolution
  | e :: rest => do
    let _ ← scope.evaluation e
    step scope resolution rest

/-- The object or template that a local name is bound to. -/
def localStyle? (scope : Scope) (name : String) : Option Expr :=
  match scope.unit.bindings.get? name with
  | some (.object span members) => some (.object span members)
  | some (.template span pieces holes) => some (.template span pieces holes)
  | _ => none

mutual

/-- Resolves an expression inside `depth` local names. -/
def inputAt (scope : Scope) (depth : Nat) (e : Expr) : Resolving StyleInput := do
  Logged.visit depth e
  match e with
  | .object _ members => return .object (← scope |>.entriesAt depth members)
  | .template span pieces holes => do
    let (text, refs) ← scope.step (scope.cssText "" [] pieces holes) (holes.take pieces.length)
    return .css text refs span
  | .array _ items => return .list (← scope |>.inputsAt depth items)
  | .conditional _ test yes no => do
    match ← scope.evaluation test with
    | .ok value => if value.isTruthy then scope |>.inputAt depth yes else scope |>.inputAt depth no
    | .error obstacle => do
      ofResolution (note obstacle test.span)
      let consequent ← scope |>.inputAt depth yes
      let alternate ← scope |>.inputAt depth no
      return .branch (SourceRef.of scope.unit test) consequent alternate
  | .logical _ .and left right => do
    match ← scope.evaluation left with
    | .ok value => if value.isTruthy then scope |>.inputAt depth right else return .empty
    | .error obstacle => do
      ofResolution (note obstacle left.span)
      let body ← scope |>.inputAt depth right
      return .guarded (SourceRef.of scope.unit left) body
  | .ident span name => scope |>.localInputAt depth span name
  | e => scope.step (scope.evaluatedInput e) [e]
partial_fixpoint

/-- Follows a local name to its style, unless too many are open. -/
def localInputAt (scope : Scope) (depth : Nat) (span : Span) (name : String) :
    Resolving StyleInput :=
  let evaluated := scope.step (scope.evaluatedInput (.ident span name)) [.ident span name]
  if depth < maxDepth then
    match scope.localStyle? name with
    | some init => scope |>.inputAt (depth + 1) init
    | none => evaluated
  else evaluated
partial_fixpoint

/-- Resolves expressions in order. -/
def inputsAt (scope : Scope) (depth : Nat) (items : List Expr) : Resolving (List StyleInput) :=
  match items with
  | [] => return []
  | e :: rest => do
    let first ← scope |>.inputAt depth e
    let others ← scope |>.inputsAt depth rest
    return first :: others
partial_fixpoint

/-- Resolves the members of an object. -/
def entriesAt (scope : Scope) (depth : Nat) (members : List Member) : Resolving Entries :=
  match members with
  | [] => return .nil
  | .named key e :: rest => do
    let held ← scope |>.valueAt depth e
    return held.entry key e.span (← scope |>.entriesAt depth rest)
  | .computed keyExpr e :: rest => do
    let key ← scope.step (scope.computedKey keyExpr e.span) [keyExpr]
    let held ← scope |>.valueAt depth e
    return held.entry key e.span (← scope |>.entriesAt depth rest)
  | .shorthand name :: rest => do
    let held ← scope |>.valueAt depth (.ident Span.none name)
    return held.entry name Span.none (← scope |>.entriesAt depth rest)
  | .spread e :: rest => do
    let first ← scope |>.spreadAt depth e
    return first ++ (← scope |>.entriesAt depth rest)
partial_fixpoint

/-- Resolves the value of an entry. -/
def valueAt (scope : Scope) (depth : Nat) (e : Expr) : Resolving Held := do
  Logged.visit depth e
  match e with
  | .object _ members => return .block (← scope |>.entriesAt depth members)
  | .template _ pieces holes =>
    scope.step (scope.templateValue pieces holes) (holes.take pieces.length)
  | e => scope.step (scope.evaluatedValue e) [e]
partial_fixpoint

/-- Resolves an expression that is spread. -/
def spreadAt (scope : Scope) (depth : Nat) (e : Expr) : Resolving Entries := do
  Logged.visit depth e
  match e with
  | .object _ members => scope |>.entriesAt depth members
  | .ident span name => scope |>.localEntriesAt depth span name
  | e => scope.step (scope.evaluatedSpread e) [e]
partial_fixpoint

/-- Follows a local name to its object, unless too many are open. -/
def localEntriesAt (scope : Scope) (depth : Nat) (span : Span) (name : String) :
    Resolving Entries :=
  let evaluated := scope.step (scope.evaluatedSpread (.ident span name)) [.ident span name]
  if depth < maxDepth then
    match scope.localStyle? name with
    | some (.object _ members) => scope |>.entriesAt (depth + 1) members
    | _ => evaluated
  else evaluated
partial_fixpoint

end

/-! ## Resolution ends -/

section Steps

variable {α : Type} {run : Resolving α} {resolution : Resolution α}

theorem ends_visit {depth : Nat} (h : depth ≤ maxDepth) (e : Expr) (hrun : run.Ends resolution) :
    Resolving.Ends (do Logged.visit depth e; run) resolution := by
  intro progress
  have hvisit : Logged.Ends
      ((liftM (Logged.visit depth e) : Resolving Unit).run.run progress) (.ok (), progress) :=
    fun _ => ⟨[⟨depth, e⟩], rfl, List.forall_mem_singleton.mpr h⟩
  rw [ExceptT.run_bind, StateT.run_bind]
  exact hvisit.bind (hrun progress)

theorem ends_evaluation (scope : Scope) (e : Expr) {next : Evaluated → Resolving α}
    (hnext : (next (scope.evaluate e)).Ends resolution) :
    Resolving.Ends (scope.evaluation e >>= next) resolution := by
  intro progress
  have hevaluation : Logged.Ends ((scope.evaluation e).run.run progress)
      (.ok (scope.evaluate e), progress) :=
    Logged.Ends.bind (scope.env.ends_evaluate scope.unit e) (.pure _)
  rw [ExceptT.run_bind, StateT.run_bind]
  exact hevaluation.bind (hnext progress)

theorem ends_step (scope : Scope) (resolution : Resolution α) (items : List Expr) :
    (scope.step resolution items).Ends resolution := by
  induction items with
  | nil => exact .ofResolution resolution
  | cons e rest ih => exact ends_evaluation scope e ih

end Steps

/-- At some depth the runs for local names end as the local styles do. -/
structure LocalsEnd (scope : Scope) (depth : Nat) (locals : LocalStyles) : Prop where
  input (span : Span) (name : String) : (localInputAt scope depth span name).Ends
    ((locals.input name).getD (scope.evaluatedInput (.ident span name)))
  entries (span : Span) (name : String) : (localEntriesAt scope depth span name).Ends
    ((locals.entries name).getD (scope.evaluatedSpread (.ident span name)))

section Expressions

variable {scope : Scope} {depth : Nat} {locals : LocalStyles}

theorem ends_value_ident (hdepth : depth ≤ maxDepth) (span : Span) (name : String) :
    (valueAt scope depth (.ident span name)).Ends (scope.evaluatedValue (.ident span name)) := by
  rw [valueAt.eq_def]
  exact ends_visit hdepth _ (ends_step scope _ _)

mutual

theorem ends_input (hdepth : depth ≤ maxDepth) (h : LocalsEnd scope depth locals) (e : Expr) :
    (inputAt scope depth e).Ends (scope.input locals e) := by
  rw [inputAt.eq_def]
  refine ends_visit hdepth e ?_
  cases e with
  | object span members =>
    simp only [input]
    exact (ends_entries hdepth h members).bind fun entries => .pure _
  | template span pieces holes =>
    simp only [input]
    exact (ends_step scope _ _).bind fun found => .pure _
  | array span items =>
    simp only [input]
    exact (ends_inputs hdepth h items).bind fun inputs => .pure _
  | conditional span test yes no =>
    refine ends_evaluation scope test ?_
    simp only [input]
    cases scope.evaluate test with
    | ok value =>
      dsimp only
      split
      · exact ends_input hdepth h yes
      · exact ends_input hdepth h no
    | error obstacle =>
      refine (Resolving.Ends.ofResolution _).bind fun _ => ?_
      refine (ends_input hdepth h yes).bind fun consequent => ?_
      exact (ends_input hdepth h no).bind fun alternate => .pure _
  | logical span op left right =>
    cases op with
    | and =>
      refine ends_evaluation scope left ?_
      simp only [input]
      cases scope.evaluate left with
      | ok value =>
        dsimp only
        split
        · exact ends_input hdepth h right
        · exact .pure _
      | error obstacle =>
        refine (Resolving.Ends.ofResolution _).bind fun _ => ?_
        exact (ends_input hdepth h right).bind fun body => .pure _
    | or | nullish =>
      simp only [input]
      exact ends_step scope _ _
  | ident span name =>
    simp only [input]
    exact h.input span name
  | _ =>
    simp only [input]
    exact ends_step scope _ _

theorem ends_inputs (hdepth : depth ≤ maxDepth) (h : LocalsEnd scope depth locals)
    (items : List Expr) : (inputsAt scope depth items).Ends (scope.inputs locals items) := by
  rw [inputsAt.eq_def]
  cases items with
  | nil => exact .pure _
  | cons e rest =>
    simp only [inputs]
    refine (ends_input hdepth h e).bind fun first => ?_
    exact (ends_inputs hdepth h rest).bind fun others => .pure _

theorem ends_entries (hdepth : depth ≤ maxDepth) (h : LocalsEnd scope depth locals)
    (members : List Member) :
    (entriesAt scope depth members).Ends (scope.entries locals members) := by
  rw [entriesAt.eq_def]
  cases members with
  | nil => exact .pure _
  | cons member rest =>
    cases member with
    | named key e =>
      simp only [entries]
      refine (ends_value hdepth h e).bind fun held => ?_
      exact (ends_entries hdepth h rest).bind fun others => .pure _
    | computed keyExpr e =>
      simp only [entries]
      refine (ends_step scope _ _).bind fun key => ?_
      refine (ends_value hdepth h e).bind fun held => ?_
      exact (ends_entries hdepth h rest).bind fun others => .pure _
    | shorthand name =>
      simp only [entries]
      refine (ends_value_ident hdepth Span.none name).bind fun held => ?_
      exact (ends_entries hdepth h rest).bind fun others => .pure _
    | spread e =>
      simp only [entries]
      refine (ends_spread hdepth h e).bind fun first => ?_
      exact (ends_entries hdepth h rest).bind fun others => .pure _

theorem ends_value (hdepth : depth ≤ maxDepth) (h : LocalsEnd scope depth locals) (e : Expr) :
    (valueAt scope depth e).Ends (scope.value locals e) := by
  rw [valueAt.eq_def]
  refine ends_visit hdepth e ?_
  cases e with
  | object span members =>
    simp only [value]
    exact (ends_entries hdepth h members).bind fun entries => .pure _
  | _ =>
    simp only [value]
    exact ends_step scope _ _

theorem ends_spread (hdepth : depth ≤ maxDepth) (h : LocalsEnd scope depth locals) (e : Expr) :
    (spreadAt scope depth e).Ends (scope.spread locals e) := by
  rw [spreadAt.eq_def]
  refine ends_visit hdepth e ?_
  cases e with
  | object span members =>
    simp only [spread]
    exact ends_entries hdepth h members
  | ident span name =>
    simp only [spread]
    exact h.entries span name
  | _ =>
    simp only [spread]
    exact ends_step scope _ _

end

end Expressions

/-- At every depth the runs for local names end as the local styles of this depth do. -/
theorem ends_locals (scope : Scope) {depth names : Nat} (h : depth + names = maxDepth) :
    LocalsEnd scope depth (scope.locals names) := by
  induction names generalizing depth with
  | zero =>
    have hdepth : ¬ depth < maxDepth := by omega
    constructor
    · intro span name
      rw [localInputAt.eq_def, if_neg hdepth]
      exact ends_step scope _ _
    · intro span name
      rw [localEntriesAt.eq_def, if_neg hdepth]
      exact ends_step scope _ _
  | succ names ih =>
    have hdepth : depth < maxDepth := by omega
    have hinner : LocalsEnd scope (depth + 1) (scope.locals names) := ih (by omega)
    constructor
    · intro span name
      rw [localInputAt.eq_def, if_pos hdepth]
      cases hbinding : scope.unit.bindings.get? name with
      | none =>
        simp only [localStyle?, locals, hbinding]
        exact ends_step scope _ _
      | some init =>
        cases init with
        | object | template =>
          simp only [localStyle?, locals, hbinding]
          exact ends_input hdepth hinner _
        | _ =>
          simp only [localStyle?, locals, hbinding]
          exact ends_step scope _ _
    · intro span name
      rw [localEntriesAt.eq_def, if_pos hdepth]
      cases hbinding : scope.unit.bindings.get? name with
      | none =>
        simp only [localStyle?, locals, hbinding]
        exact ends_step scope _ _
      | some init =>
        cases init with
        | object span members =>
          simp only [localStyle?, locals, hbinding]
          exact ends_entries hdepth hinner members
        | _ =>
          simp only [localStyle?, locals, hbinding]
          exact ends_step scope _ _

end Scope

/-- **Termination.**  Whatever the modules, the helpers, the unit and the expression are, evaluation
ends, and so does resolution from every state.  No expression is met at a depth beyond `maxDepth`. -/
theorem evaluation_and_resolution_end (env : Env) (unit : SourceUnit) (e : Expr) :
    (env.evalAt 0 (Frame.top unit) e).Ends (env.evaluate unit e) ∧
      (Scope.inputAt ⟨env, unit⟩ 0 e).Ends (Scope.resolve ⟨env, unit⟩ e) := by
  refine ⟨env.ends_evaluate unit e, ?_⟩
  exact Scope.ends_input (Nat.zero_le _) (Scope.ends_locals ⟨env, unit⟩ (Nat.zero_add _)) e

/-- A function that calls its argument with itself is called with itself. -/
example :
    let body : Expr := .call Span.none (.ident Span.none "f") [.ident Span.none "f"]
    let unit : SourceUnit :=
      { path := "loop.ts", bindings := [("loop", .function Span.none ["f"] body)] }
    Env.evaluate ⟨Resolver.none, Helpers.standard⟩ unit
      (.call Span.none (.ident Span.none "loop") [.ident Span.none "loop"]) = .error .tooDeep :=
  rfl

end AtomicStyle
