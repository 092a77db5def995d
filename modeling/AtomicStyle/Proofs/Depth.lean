import AtomicStyle.Value.Evaluation

/-!
# Constants at every depth

Evaluation ends where too many bindings, exports and calls are open.  It then reports an obstacle,
and every form of expression hands an obstacle on, as it is or as another one.  The one place
where an obstacle is passed over is the search through modules that are exported wholesale: where
the first of them is too deep, the next one is asked, and it may export another value under the
same name.

So where every module names its exports, a constant that is found at some depth is the constant
that is found at every smaller depth.

Results:
1. `carries_eval`: if the constants of one level are constants of another one, so are those of the
   levels above them.
2. `carries_level`: the constants of a level are constants of every higher level.
3. `eval_eq_of_depth_le`: the depth makes no other difference than that between a constant and none.
-/

namespace AtomicStyle

/-! ## Modules that name their exports -/

/-- A unit exports nothing wholesale. -/
def SourceUnit.Explicit (unit : SourceUnit) : Prop :=
  ∀ source, Export.all source ∉ unit.exports

/-- The modules in a value export nothing wholesale. -/
inductive Value.Explicit : Value → Prop where
  | undefined : Explicit .undefined
  | null : Explicit .null
  | bool (value : Bool) : Explicit (.bool value)
  | num (value : Float) : Explicit (.num value)
  | str (value : String) : Explicit (.str value)
  | array {items : List Value} (h : ∀ item ∈ items, Explicit item) : Explicit (.array items)
  | object {members : List (String × Value)} (h : ∀ entry ∈ members, Explicit entry.2) :
    Explicit (.object members)
  | function {params : List String} {body : Expr} {unit : SourceUnit}
    {scope : List (String × Value)} (h : ∀ entry ∈ scope, Explicit entry.2) :
    Explicit (.function params body unit scope)
  | module {unit : SourceUnit} (h : unit.Explicit) : Explicit (.module unit)

/-- The modules that evaluation can reach export nothing wholesale. -/
structure Env.Explicit (env : Env) : Prop where
  resolve {unit : SourceUnit} {source : String} {target : SourceUnit} :
    env.resolve unit source = some target → target.Explicit
  helper {key : String} {helper : Helper} {args : List Value} {value : Value} :
    env.helpers key = some helper → (∀ arg ∈ args, arg.Explicit) → helper args = some value →
      value.Explicit

/-- The modules in the local values of a frame export nothing wholesale. -/
def Frame.Explicit (frame : Frame) : Prop :=
  ∀ entry ∈ frame.scope, entry.2.Explicit

theorem Frame.explicit_top (unit : SourceUnit) : (Frame.top unit).Explicit :=
  List.forall_mem_nil _

namespace Ordered

variable {α : Type} {entries : Ordered α} {p : α → Prop}

theorem forall_get? (h : ∀ entry ∈ entries, p entry.2) {key : String} {value : α}
    (hget : entries.get? key = some value) : p value := by
  induction entries with
  | nil => cases hget
  | cons entry rest ih =>
    obtain ⟨hentry, hrest⟩ := List.forall_mem_cons.mp h
    rw [get?_cons] at hget
    split at hget
    · exact Option.some.inj hget ▸ hentry
    · exact ih hrest hget

theorem forall_put (h : ∀ entry ∈ entries, p entry.2) (key : String) {value : α}
    (hvalue : p value) : ∀ entry ∈ entries.put key value, p entry.2 := by
  induction entries with
  | nil => exact List.forall_mem_singleton.mpr hvalue
  | cons entry rest ih =>
    obtain ⟨hentry, hrest⟩ := List.forall_mem_cons.mp h
    rw [put]
    split
    · exact List.forall_mem_cons.mpr ⟨hvalue, hrest⟩
    · exact List.forall_mem_cons.mpr ⟨hentry, ih hrest⟩

theorem forall_putAll (h : ∀ entry ∈ entries, p entry.2) {more : List (String × α)}
    (hmore : ∀ entry ∈ more, p entry.2) : ∀ entry ∈ entries.putAll more, p entry.2 := by
  unfold putAll
  induction more generalizing entries with
  | nil => exact h
  | cons entry rest ih =>
    obtain ⟨hentry, hrest⟩ := List.forall_mem_cons.mp hmore
    exact ih (forall_put h entry.1 hentry) hrest

end Ordered

/-- Of a graph of such units a specifier names only such units. -/
theorem ModuleGraph.explicit_of_resolver {graph : ModuleGraph}
    (h : ∀ entry ∈ graph.units, entry.2.Explicit) {unit target : SourceUnit} {source : String}
    (hresolve : graph.resolver unit source = some target) : target.Explicit := by
  have hget : ∀ path target, graph.get? path = some target → target.Explicit := by
    intro path target hget
    obtain ⟨before, after, hunits, -⟩ := List.lookup_eq_some_iff.mp hget
    exact h (path.normalize, target) (hunits ▸ List.mem_append_right before List.mem_cons_self)
  unfold resolver lookup? at hresolve
  split at hresolve
  · next direct hdirect => exact Option.some.inj hresolve ▸ hget _ _ hdirect
  · obtain ⟨name, -, hfound⟩ := Option.bind_eq_some_iff.mp hresolve
    obtain ⟨path, -, hpath⟩ := List.exists_of_findSome?_eq_some hfound
    exact hget path target hpath

/-- The helpers of the script language give numbers and texts. -/
theorem Helpers.explicit_of_standard {key : String} {helper : Helper} {args : List Value}
    {value : Value} (hhelper : standard key = some helper) (hvalue : helper args = some value) :
    value.Explicit := by
  have hfold : ∀ f acc args value, foldNumbers f acc args = some value → value.Explicit := by
    intro f acc args value h
    fun_induction foldNumbers f acc args with
    | case1 acc => exact Option.some.inj h ▸ .num acc
    | case2 acc x rest ih => exact ih h
    | case3 => cases h
  have hnumber : ∀ f args value, onNumber f args = some value → value.Explicit := by
    intro f args value h
    unfold onNumber at h
    split at h
    · exact Option.some.inj h ▸ .num _
    · cases h
  have htext : ∀ args value, textOf args = some value → value.Explicit := by
    intro args value h
    unfold textOf at h
    split at h
    · exact Option.some.inj h ▸ .str ""
    · obtain ⟨text, -, rfl⟩ := Option.map_eq_some_iff.mp h
      exact .str text
  unfold standard at hhelper
  split at hhelper <;> cases hhelper
  · exact hfold _ _ _ _ hvalue
  · exact hfold _ _ _ _ hvalue
  · exact hnumber _ _ _ hvalue
  · exact hnumber _ _ _ hvalue
  · exact hnumber _ _ _ hvalue
  · exact hnumber _ _ _ hvalue
  · exact htext _ _ hvalue

namespace Evaluation

/-! ## Results that are kept -/

section Carries

variable {α β : Type} {p : α → Prop} {q : β → Prop}

/-- What the first of two evaluations gives, the second gives too, and it has a property. -/
def Carries (p : α → Prop) (lower upper : Except Obstacle α) : Prop :=
  ∀ value, lower = .ok value → upper = .ok value ∧ p value

namespace Carries

variable {lower upper : Except Obstacle α}

theorem ok {value : α} (h : p value) : Carries p (.ok value) (.ok value) := by
  rintro _ ⟨⟩
  exact ⟨rfl, h⟩

theorem error {obstacle : Obstacle} : Carries p (.error obstacle) upper :=
  nofun

theorem refl (h : ∀ value, lower = .ok value → p value) : Carries p lower lower :=
  fun value hvalue => ⟨hvalue, h value hvalue⟩

theorem bind (h : Carries p lower upper) {f g : α → Except Obstacle β}
    (hf : ∀ value, p value → Carries q (f value) (g value)) :
    Carries q (lower >>= f) (upper >>= g) := by
  cases hlower : lower with
  | error obstacle => exact error
  | ok value =>
    obtain ⟨hupper, hvalue⟩ := h value hlower
    rw [hupper]
    exact hf value hvalue

theorem mapError (h : Carries p lower upper) (f : Obstacle → Obstacle) :
    Carries p (lower.mapError f) (upper.mapError f) := by
  cases hlower : lower with
  | error obstacle => exact error
  | ok value =>
    obtain ⟨hupper, hvalue⟩ := h value hlower
    rw [hupper]
    exact ok hvalue

end Carries

end Carries

/-- What one level gives, another one gives too. -/
structure LevelCarries (lower upper : Level) : Prop where
  eval {frame : Frame} (hframe : frame.Explicit) (e : Expr) :
    Carries Value.Explicit (lower.eval frame e) (upper.eval frame e)
  name {frame : Frame} (hframe : frame.Explicit) (identifier : String) :
    Carries Value.Explicit (lower.name frame identifier) (upper.name frame identifier)
  exported {unit : SourceUnit} (hunit : unit.Explicit) (key : String) :
    Carries Value.Explicit (lower.exported unit key) (upper.exported unit key)

/-! ## Operators -/

theorem explicit_of_arithmetic {f : Float → Float → Float} {left right value : Value}
    (h : arithmetic f left right = .ok value) : value.Explicit := by
  unfold arithmetic at h
  split at h
  · cases h
    exact .num _
  · cases h

theorem explicit_of_add {left right value : Value} (h : add left right = .ok value) :
    value.Explicit := by
  unfold add at h
  split at h
  · cases h
    exact .num _
  · split at h
    · split at h
      · cases h
        exact .str _
      · cases h
    · split at h
      · cases h
        exact .str _
      · cases h
    · cases h

theorem explicit_of_binary {op : BinaryOp} {left right value : Value}
    (h : binary op left right = .ok value) : value.Explicit := by
  cases op with
  | add => exact explicit_of_add h
  | sub | mul | div | rem => exact explicit_of_arithmetic h
  | strictEq | strictNe =>
    cases hequal : strictEqual left right with
    | error obstacle =>
      rw [binary, hequal] at h
      cases h
    | ok equal =>
      rw [binary, hequal] at h
      cases h
      exact .bool _

theorem explicit_of_unary {op : UnaryOp} {arg value : Value} (h : unary op arg = .ok value) :
    value.Explicit := by
  unfold unary at h
  split at h
  · cases h
    exact .bool _
  · cases h
    exact .num _
  · cases h
    exact .num _
  · cases h
    exact .num _
  · cases h

theorem explicit_of_global {identifier : String} {value : Value}
    (h : global identifier = .ok value) : value.Explicit := by
  unfold global at h
  split at h
  · cases h
    exact .undefined
  · cases h
    exact .num _
  · cases h
    exact .num _
  · cases h

/-! ## Names, exports and members -/

section Steps

variable {env : Env} {lower upper : Level}

theorem carries_name (henv : env.Explicit) (h : LevelCarries lower upper) {frame : Frame}
    (hframe : frame.Explicit) (identifier : String) :
    Carries Value.Explicit (name env lower frame identifier) (name env upper frame identifier) := by
  unfold name
  cases hlocal : frame.scope.get? identifier with
  | some value => exact .ok (Ordered.forall_get? hframe hlocal)
  | none =>
    cases frame.unit.bindings.get? identifier with
    | some init => exact h.eval (Frame.explicit_top frame.unit) init
    | none =>
      cases frame.unit.import? identifier with
      | none => exact .refl fun _ => explicit_of_global
      | some i =>
        dsimp only
        cases htarget : env.resolve frame.unit i.source with
        | none => exact .error
        | some target =>
          have hexplicit := henv.resolve htarget
          cases i.kind with
          | named exported => exact h.exported hexplicit exported
          | default => exact h.exported hexplicit "default"
          | whole => exact .ok (.module hexplicit)

/-- The first export under a name is the same on both levels, and so is what it gives. -/
theorem carries_directExport? (henv : env.Explicit) (h : LevelCarries lower upper)
    (unit : SourceUnit) (key : String) (exports : List Export) :
    Option.Rel (Carries Value.Explicit) (directExport? env lower unit key exports)
      (directExport? env upper unit key exports) := by
  induction exports with
  | nil => exact .none
  | cons e rest ih =>
    cases e with
    | binding exported localName =>
      simp only [directExport?]
      split
      · exact .some (h.name (Frame.explicit_top unit) localName)
      · exact ih
    | forwarded exported imported source =>
      simp only [directExport?]
      split
      · cases htarget : env.resolve unit source with
        | none => exact .some .error
        | some target => exact .some (h.exported (henv.resolve htarget) imported)
      · exact ih
    | all source => exact ih

/-- Where nothing is exported wholesale, no module is searched. -/
theorem forwardedExport_of_explicit (below : Level) (unit : SourceUnit) (key : String)
    {exports : List Export} (h : ∀ source, Export.all source ∉ exports) :
    forwardedExport env below unit key exports = .error (.unresolved unit.path key) := by
  induction exports with
  | nil => rfl
  | cons e rest ih =>
    have hrest : ∀ source, Export.all source ∉ rest :=
      fun source hsource => h source (List.mem_cons_of_mem e hsource)
    cases e with
    | binding exported localName => exact ih hrest
    | forwarded exported imported source => exact ih hrest
    | all source => exact absurd List.mem_cons_self (h source)

theorem carries_exported (henv : env.Explicit) (h : LevelCarries lower upper) {unit : SourceUnit}
    (hunit : unit.Explicit) (key : String) :
    Carries Value.Explicit (exported env lower unit key) (exported env upper unit key) := by
  have hdirect := carries_directExport? henv h unit key unit.exports
  unfold exported
  generalize directExport? env lower unit key unit.exports = direct,
    directExport? env upper unit key unit.exports = direct' at hdirect ⊢
  cases hdirect with
  | none =>
    rw [forwardedExport_of_explicit lower unit key hunit]
    exact .error
  | some hresult => exact hresult

theorem carries_member (h : LevelCarries lower upper) {value : Value} (hvalue : value.Explicit)
    (key : String) :
    Carries Value.Explicit (member lower value key) (member upper value key) := by
  cases hvalue with
  | @object members hmembers =>
    refine .ok ?_
    cases hget : Ordered.get? members key with
    | none => exact .undefined
    | some inner => exact Ordered.forall_get? hmembers hget
  | @array items hitems =>
    simp only [member]
    split
    · exact .ok (.num _)
    · split
      · next i _ =>
        refine .ok ?_
        cases hitem : items[i]? with
        | none => exact .undefined
        | some item => exact hitems item (List.mem_of_getElem? hitem)
      · exact .error
  | str s =>
    simp only [member]
    split
    · exact .ok (.num _)
    · exact .error
  | module hunit => exact h.exported hunit key
  | undefined | null | bool | num | function => exact .error

theorem carries_apply (h : LevelCarries lower upper) {callee : Value} (hcallee : callee.Explicit)
    {args : List Value} (hargs : ∀ arg ∈ args, arg.Explicit) :
    Carries Value.Explicit (apply lower callee args) (apply upper callee args) := by
  cases hcallee with
  | function hscope =>
    refine h.eval ?_ _
    refine Ordered.forall_putAll hscope fun entry hentry => ?_
    obtain ⟨⟨param, i⟩, -, rfl⟩ := List.mem_map.mp hentry
    show (args[i]?.getD .undefined).Explicit
    cases harg : args[i]? with
    | none => exact .undefined
    | some arg => exact hargs arg (List.mem_of_getElem? harg)
  | _ => exact .error

/-! ## Expressions -/

mutual

theorem carries_eval (henv : env.Explicit) (h : LevelCarries lower upper) {frame : Frame}
    (hframe : frame.Explicit) (e : Expr) :
    Carries Value.Explicit (eval env lower frame e) (eval env upper frame e) := by
  cases e with
  | str span value => exact .ok (.str value)
  | num span value => exact .ok (.num value)
  | bool span value => exact .ok (.bool value)
  | null span => exact .ok .null
  | ident span identifier => exact carries_name henv h hframe identifier
  | field span target property =>
    simp only [eval]
    refine (carries_eval henv h hframe target).bind ?_
    exact fun value hvalue => carries_member h hvalue property
  | index span target key =>
    simp only [eval]
    refine (carries_eval henv h hframe target).bind fun value hvalue => ?_
    -- the obstacle of a key is renamed, but it is never passed over
    cases hkey : eval env lower frame key with
    | error obstacle => exact .error
    | ok keyValue =>
      rw [(carries_eval henv h hframe key keyValue hkey).1]
      dsimp only
      cases keyValue.key? with
      | some property => exact carries_member h hvalue property
      | none => exact .error
  | call span callee args =>
    simp only [eval]
    have hargs := (carries_evalAll henv h hframe args).mapError Obstacle.ofArgument
    cases hhelper : (helperKey? frame callee).bind env.helpers with
    | some helper =>
      obtain ⟨key, -, hkey⟩ := Option.bind_eq_some_iff.mp hhelper
      refine hargs.bind fun values hvalues => ?_
      cases hvalue : helper values with
      | some value => exact .ok (henv.helper hkey hvalues hvalue)
      | none => exact .error
    | none =>
      refine ((carries_eval henv h hframe callee).mapError _).bind fun function hfunction => ?_
      split
      · exact hargs.bind fun values hvalues => carries_apply h hfunction hvalues
      · exact .error
  | binary span op left right =>
    simp only [eval]
    refine (carries_eval henv h hframe left).bind fun a _ => ?_
    refine (carries_eval henv h hframe right).bind fun b _ => ?_
    exact .refl fun _ => explicit_of_binary
  | unary span op arg =>
    simp only [eval]
    refine (carries_eval henv h hframe arg).bind fun value _ => ?_
    exact .refl fun _ => explicit_of_unary
  | template span texts holes =>
    simp only [eval]
    refine (carries_evalTemplate henv h hframe texts holes).bind fun text _ => ?_
    exact .ok (.str text)
  | object span members =>
    simp only [eval]
    refine (carries_evalMembers henv h hframe (List.forall_mem_nil _) members).bind ?_
    exact fun values hvalues => .ok (.object hvalues)
  | array span items =>
    simp only [eval]
    refine (carries_evalAll henv h hframe items).bind ?_
    exact fun values hvalues => .ok (.array hvalues)
  | function span params body => exact .ok (.function hframe)
  | conditional span test yes no =>
    simp only [eval]
    refine (carries_eval henv h hframe test).bind fun value _ => ?_
    split
    · exact carries_eval henv h hframe yes
    · exact carries_eval henv h hframe no
  | logical span op left right =>
    simp only [eval]
    refine (carries_eval henv h hframe left).bind fun value hvalue => ?_
    split
    · exact .ok hvalue
    · exact carries_eval henv h hframe right

theorem carries_evalAll (henv : env.Explicit) (h : LevelCarries lower upper) {frame : Frame}
    (hframe : frame.Explicit) (items : List Expr) :
    Carries (fun values : List Value => ∀ value ∈ values, value.Explicit)
      (evalAll env lower frame items) (evalAll env upper frame items) := by
  cases items with
  | nil => exact .ok (List.forall_mem_nil _)
  | cons e rest =>
    simp only [evalAll]
    refine (carries_eval henv h hframe e).bind fun value hvalue => ?_
    refine (carries_evalAll henv h hframe rest).bind fun values hvalues => ?_
    exact .ok (List.forall_mem_cons.mpr ⟨hvalue, hvalues⟩)

theorem carries_evalTemplate (henv : env.Explicit) (h : LevelCarries lower upper) {frame : Frame}
    (hframe : frame.Explicit) (texts : List String) (holes : List Expr) :
    Carries (fun _ => True) (evalTemplate env lower frame texts holes)
      (evalTemplate env upper frame texts holes) := by
  cases holes with
  | nil => exact .ok trivial
  | cons hole holes =>
    cases texts with
    | nil => exact .ok trivial
    | cons text texts =>
      simp only [evalTemplate]
      refine (carries_eval henv h hframe hole).bind fun value _ => ?_
      cases value.text? with
      | none => exact .error
      | some inner =>
        refine (carries_evalTemplate henv h hframe texts holes).bind fun rest _ => ?_
        exact .ok trivial

theorem carries_evalMembers (henv : env.Explicit) (h : LevelCarries lower upper) {frame : Frame}
    (hframe : frame.Explicit) {written : Ordered Value}
    (hwritten : ∀ entry ∈ written, entry.2.Explicit) (members : List Member) :
    Carries (fun values : Ordered Value => ∀ entry ∈ values, entry.2.Explicit)
      (evalMembers env lower frame written members)
      (evalMembers env upper frame written members) := by
  cases members with
  | nil => exact .ok hwritten
  | cons member rest =>
    cases member with
    | named key e =>
      simp only [evalMembers]
      refine (carries_eval henv h hframe e).bind fun value hvalue => ?_
      exact carries_evalMembers henv h hframe (Ordered.forall_put hwritten key hvalue) rest
    | computed key e =>
      simp only [evalMembers]
      refine (carries_eval henv h hframe key).bind fun keyValue _ => ?_
      cases keyValue.key? with
      | none => exact .error
      | some property =>
        refine (carries_eval henv h hframe e).bind fun value hvalue => ?_
        exact carries_evalMembers henv h hframe (Ordered.forall_put hwritten property hvalue) rest
    | shorthand identifier =>
      simp only [evalMembers]
      refine (carries_name henv h hframe identifier).bind fun value hvalue => ?_
      exact carries_evalMembers henv h hframe (Ordered.forall_put hwritten identifier hvalue) rest
    | spread source =>
      simp only [evalMembers]
      refine (carries_eval henv h hframe source).bind fun value hvalue => ?_
      cases hvalue with
      | object hmembers =>
        exact carries_evalMembers henv h hframe (Ordered.forall_putAll hwritten hmembers) rest
      | undefined | null => exact carries_evalMembers henv h hframe hwritten rest
      | _ => exact .error

end

end Steps

/-! ## Levels -/

theorem carries_floor (upper : Level) : LevelCarries floor upper :=
  ⟨fun _ _ => .error, fun _ _ => .error, fun _ _ => .error⟩

theorem carries_above {env : Env} (henv : env.Explicit) {lower upper : Level}
    (h : LevelCarries lower upper) : LevelCarries (above env lower) (above env upper) :=
  ⟨carries_eval henv h, carries_name henv h, carries_exported henv h⟩

/-- What a level gives, every higher one gives too. -/
theorem carries_level {env : Env} (henv : env.Explicit) {n m : Nat} (hle : n ≤ m) :
    LevelCarries (level env n) (level env m) := by
  induction n generalizing m with
  | zero =>
    -- on the last level only names have values, and what they lead to is on the floor
    refine ⟨fun _ _ => .error, fun hframe identifier => ?_, fun _ _ => .error⟩
    cases m with
    | zero => exact carries_name henv (carries_floor floor) hframe identifier
    | succ m => exact carries_name henv (carries_floor (level env m)) hframe identifier
  | succ n ih =>
    cases m with
    | zero => exact absurd hle (Nat.not_succ_le_zero n)
    | succ m => exact carries_above henv (ih (Nat.le_of_succ_le_succ hle))

/-- The level on which an expression is evaluated inside `depth` bindings, exports and calls. -/
def atDepth (env : Env) (depth : Nat) : Level :=
  level env (maxDepth + 1 - depth)

/-- **Depth.**  Where no module exports wholesale, a constant that is found at some depth is found
at every smaller depth, so a greater depth may leave an expression without a constant but never gives
it another one. -/
theorem eval_eq_of_depth_le {env : Env} (henv : env.Explicit) {frame : Frame}
    (hframe : frame.Explicit) (e : Expr) {depth' depth : Nat} (hdepth : depth' ≤ depth) :
    (∀ value, (atDepth env depth).eval frame e = .ok value →
      (atDepth env depth').eval frame e = .ok value) ∧
    ∀ value, (atDepth env depth').eval frame e = .ok value →
      (atDepth env depth).eval frame e = .ok value ∨
      ∃ obstacle, (atDepth env depth).eval frame e = .error obstacle := by
  have hcarries := carries_level henv (Nat.sub_le_sub_left hdepth (maxDepth + 1))
  have hless : ∀ value, (atDepth env depth).eval frame e = .ok value →
      (atDepth env depth').eval frame e = .ok value :=
    fun value hvalue => (hcarries.eval hframe e value hvalue).1
  refine ⟨hless, fun value hvalue => ?_⟩
  cases hdeep : (atDepth env depth).eval frame e with
  | error obstacle => exact .inr ⟨obstacle, rfl⟩
  | ok found => exact .inl ((hless found hdeep).symm.trans hvalue)

/-- A module with a constant. -/
def themeUnit : SourceUnit where
  path := "src/theme.ts"
  bindings := [("gap", .str Span.none "4px")]
  exports := [.binding "gap" "gap"]

/-- A unit that imports the constant and the module, with a function that uses the constant. -/
def pageUnit : SourceUnit where
  path := "src/page.ts"
  imports := [⟨"gap", .named "gap", "./theme"⟩, ⟨"theme", .whole, "./theme"⟩]
  bindings := [("pad", .function Span.none ["side"]
    (.template Span.none ["", " ", ""] [.ident Span.none "side", .ident Span.none "gap"]))]

/-- The function is called with the constant as a member of the module.  At depth 12 all of this is
just in reach, and from there on at every smaller depth. -/
theorem eval_eq_of_depth_le_page :
    let env : Env := ⟨(ModuleGraph.ofList [themeUnit, pageUnit]).resolver, Helpers.standard⟩
    let e : Expr :=
      .call Span.none (.ident Span.none "pad") [.field Span.none (.ident Span.none "theme") "gap"]
    env.Explicit ∧
      (atDepth env 13).eval (Frame.top pageUnit) e = .error .tooDeep ∧
      (atDepth env 12).eval (Frame.top pageUnit) e = .ok (.str "4px 4px") ∧
      ∀ depth ≤ 12, (atDepth env depth).eval (Frame.top pageUnit) e = .ok (.str "4px 4px") := by
  intro env e
  have hunits : ∀ entry ∈ (ModuleGraph.ofList [themeUnit, pageUnit]).units, entry.2.Explicit := by
    have hstored : (ModuleGraph.ofList [themeUnit, pageUnit]).units =
        [(ModulePath.ofString "src/theme.ts", themeUnit),
          (ModulePath.ofString "src/page.ts", pageUnit)] := rfl
    rw [hstored]
    simp [SourceUnit.Explicit, themeUnit, pageUnit]
  have henv : env.Explicit :=
    ⟨ModuleGraph.explicit_of_resolver hunits, fun hhelper _ => Helpers.explicit_of_standard hhelper⟩
  have hvalue : (atDepth env 12).eval (Frame.top pageUnit) e = .ok (.str "4px 4px") := rfl
  refine ⟨henv, rfl, hvalue, fun depth hdepth => ?_⟩
  exact (eval_eq_of_depth_le henv (Frame.explicit_top pageUnit) e hdepth).1 _ hvalue

end Evaluation

end AtomicStyle
