import AtomicStyle.Proofs.Decimals
import AtomicStyle.Value.Evaluation

/-!
# Expressions without their places

The plain form of an expression leaves out the places in the source text and writes a negative
literal as the opposite of an unsigned one.  No step of an evaluation looks at either, so an
expression and its plain form have the same constant, or meet the same obstacle.  Only a function
shows the difference, because it holds its body; the plain form of a constant has plain bodies in
its functions.

Results:
1. `Evaluation.alike_eval`: if the level below does not tell plain forms apart, this one does not.
2. `Env.evaluate_plain`: an expression has the constant of its plain form.
3. `Helpers.blind_standard`: the helpers of the script language do not tell plain forms apart.
-/

namespace AtomicStyle

namespace Expr

mutual

/-- An expression without its places in the source text.  A negative literal becomes the opposite of
an unsigned one. -/
def plain : Expr → Expr
  | str _ value => str Span.none value
  | num _ value =>
    if Number.isNegative value then unary Span.none .neg (num Span.none (-value))
    else num Span.none value
  | bool _ value => bool Span.none value
  | null _ => null Span.none
  | ident _ name => ident Span.none name
  | field _ target name => field Span.none target.plain name
  | index _ target key => index Span.none target.plain key.plain
  | call _ callee args => call Span.none callee.plain (plainAll args)
  | binary _ op left right => binary Span.none op left.plain right.plain
  | unary _ op arg => unary Span.none op arg.plain
  | template _ texts holes => template Span.none texts (plainAll holes)
  | object _ members => object Span.none (plainMembers members)
  | array _ items => array Span.none (plainAll items)
  | function _ params body => function Span.none params body.plain
  | conditional _ test yes no => conditional Span.none test.plain yes.plain no.plain
  | logical _ op left right => logical Span.none op left.plain right.plain

def plainAll : List Expr → List Expr
  | [] => []
  | e :: rest => e.plain :: plainAll rest

def plainMembers : List Member → List Member
  | [] => []
  | .named key value :: rest => .named key value.plain :: plainMembers rest
  | .computed key value :: rest => .computed key.plain value.plain :: plainMembers rest
  | .shorthand name :: rest => .shorthand name :: plainMembers rest
  | .spread source :: rest => .spread source.plain :: plainMembers rest

end

mutual

theorem plain_plain (e : Expr) : e.plain.plain = e.plain := by
  cases e with
  | num span x =>
    rw [plain]
    split
    · next hnegative =>
      obtain ⟨hunsigned, -, -⟩ := Number.text_of_isNegative hnegative
      rw [plain, plain, if_neg (Number.not_isNegative_of_isUnsigned hunsigned)]
    · next hnot => rw [plain, if_neg hnot]
  | str | bool | null | ident => rfl
  | field span target name => rw [plain, plain, plain_plain target]
  | index span target key => rw [plain, plain, plain_plain target, plain_plain key]
  | call span callee args => rw [plain, plain, plain_plain callee, plainAll_plainAll args]
  | binary span op left right => rw [plain, plain, plain_plain left, plain_plain right]
  | unary span op arg => rw [plain, plain, plain_plain arg]
  | template span texts holes => rw [plain, plain, plainAll_plainAll holes]
  | object span members => rw [plain, plain, plainMembers_plainMembers members]
  | array span items => rw [plain, plain, plainAll_plainAll items]
  | function span params body => rw [plain, plain, plain_plain body]
  | conditional span test yes no =>
    rw [plain, plain, plain_plain test, plain_plain yes, plain_plain no]
  | logical span op left right => rw [plain, plain, plain_plain left, plain_plain right]

theorem plainAll_plainAll (items : List Expr) : plainAll (plainAll items) = plainAll items := by
  cases items with
  | nil => rfl
  | cons e rest => rw [plainAll, plainAll, plain_plain e, plainAll_plainAll rest]

theorem plainMembers_plainMembers (members : List Member) :
    plainMembers (plainMembers members) = plainMembers members := by
  cases members with
  | nil => rfl
  | cons member rest =>
    cases member with
    | named key value =>
      rw [plainMembers, plainMembers, plain_plain value, plainMembers_plainMembers rest]
    | computed key value =>
      rw [plainMembers, plainMembers, plain_plain key, plain_plain value,
        plainMembers_plainMembers rest]
    | shorthand name => rw [plainMembers, plainMembers, plainMembers_plainMembers rest]
    | spread source =>
      rw [plainMembers, plainMembers, plain_plain source, plainMembers_plainMembers rest]

end

end Expr

namespace Value

mutual

/-- A constant whose functions have plain bodies. -/
def plain : Value → Value
  | array items => array (plainAll items)
  | object members => object (plainEntries members)
  | function params body unit scope => function params body.plain unit (plainEntries scope)
  | value => value

def plainAll : List Value → List Value
  | [] => []
  | value :: rest => value.plain :: plainAll rest

def plainEntries : Ordered Value → Ordered Value
  | [] => []
  | (key, value) :: rest => (key, value.plain) :: plainEntries rest

end

theorem plainAll_eq_map (values : List Value) : plainAll values = values.map plain := by
  induction values with
  | nil => rfl
  | cons value rest ih => rw [plainAll, ih, List.map_cons]

theorem plainEntries_eq_map (entries : Ordered Value) :
    plainEntries entries = entries.map fun entry => (entry.1, entry.2.plain) := by
  induction entries with
  | nil => rfl
  | cons entry rest ih => rw [plainEntries, ih, List.map_cons]

theorem plain_getD (found : Option Value) :
    (found.getD .undefined).plain = (found.map plain).getD .undefined := by
  cases found <;> rfl

/-! ## What plain constants show -/

mutual

theorem text?_plain (value : Value) : value.plain.text? = value.text? := by
  cases value with
  | array items => rw [plain, text?, text?, itemTexts?_plainAll]
  | _ => rfl

theorem itemTexts?_plainAll (values : List Value) :
    itemTexts? (plainAll values) = itemTexts? values := by
  cases values with
  | nil => rfl
  | cons value rest =>
    have hnullish : value.plain.isNullish = value.isNullish := by cases value <;> rfl
    rw [plainAll, itemTexts?, itemTexts?, hnullish, text?_plain value, itemTexts?_plainAll rest]

end

theorem isTruthy_plain (value : Value) : value.plain.isTruthy = value.isTruthy := by
  cases value <;> rfl

theorem isNullish_plain (value : Value) : value.plain.isNullish = value.isNullish := by
  cases value <;> rfl

theorem isReference_plain (value : Value) : value.plain.isReference = value.isReference := by
  cases value <;> rfl

theorem isFunction_plain (value : Value) : value.plain.isFunction = value.isFunction := by
  cases value <;> rfl

theorem key?_plain (value : Value) : value.plain.key? = value.key? := by
  cases value <;> rfl

theorem plain_of_not_isReference {value : Value} (h : value.isReference = false) :
    value.plain = value := by
  cases value with
  | array | object | function | module => cases h
  | _ => rfl

/-- What two constants with the same plain form are. -/
inductive SameForm : Value → Value → Prop
  | undefined : SameForm .undefined .undefined
  | null : SameForm .null .null
  | bool (value : Bool) : SameForm (.bool value) (.bool value)
  | num (value : Float) : SameForm (.num value) (.num value)
  | str (value : String) : SameForm (.str value) (.str value)
  | array {items items' : List Value} (h : plainAll items = plainAll items') :
    SameForm (.array items) (.array items')
  | object {members members' : Ordered Value} (h : plainEntries members = plainEntries members') :
    SameForm (.object members) (.object members')
  | function (params : List String) {body body' : Expr} (unit : SourceUnit)
    {scope scope' : Ordered Value} (hbody : body.plain = body'.plain)
    (hscope : plainEntries scope = plainEntries scope') :
    SameForm (.function params body unit scope) (.function params body' unit scope')
  | module (unit : SourceUnit) : SameForm (.module unit) (.module unit)

theorem sameForm_of_plain_eq {value value' : Value} (h : value.plain = value'.plain) :
    SameForm value value' := by
  cases value with
  | undefined | null | bool | num | str | module =>
    cases value' <;> cases h
    constructor
  | array items =>
    cases value' with
    | array items' => exact .array (array.inj h)
    | _ => cases h
  | object members =>
    cases value' with
    | object members' => exact .object (object.inj h)
    | _ => cases h
  | function params body unit scope =>
    cases value' with
    | function params' body' unit' scope' =>
      obtain ⟨rfl, hbody, rfl, hscope⟩ := function.inj h
      exact .function params unit hbody hscope
    | _ => cases h

/-! ## Constants without functions -/

mutual

/-- Whether there is no function in a constant. -/
def isData : Value → Bool
  | array items => areData items
  | object members => entriesAreData members
  | function .. => false
  | _ => true

def areData : List Value → Bool
  | [] => true
  | value :: rest => value.isData && areData rest

def entriesAreData : List (String × Value) → Bool
  | [] => true
  | (_, value) :: rest => value.isData && entriesAreData rest

end

mutual

theorem isData_plain (value : Value) : value.plain.isData = value.isData := by
  cases value with
  | array items => exact areData_plainAll items
  | object members => exact entriesAreData_plainEntries members
  | _ => rfl

theorem areData_plainAll (values : List Value) : areData (plainAll values) = areData values := by
  cases values with
  | nil => rfl
  | cons value rest => rw [plainAll, areData, areData, isData_plain value, areData_plainAll rest]

theorem entriesAreData_plainEntries (entries : List (String × Value)) :
    entriesAreData (plainEntries entries) = entriesAreData entries := by
  cases entries with
  | nil => rfl
  | cons entry rest =>
    obtain ⟨key, value⟩ := entry
    rw [plainEntries, entriesAreData, entriesAreData, isData_plain value,
      entriesAreData_plainEntries rest]

end

mutual

theorem plain_of_isData {value : Value} (h : value.isData = true) : value.plain = value := by
  cases value with
  | array items => rw [plain, plainAll_of_areData h]
  | object members => rw [plain, plainEntries_of_entriesAreData h]
  | function => cases h
  | _ => rfl

theorem plainAll_of_areData {values : List Value} (h : areData values = true) :
    plainAll values = values := by
  cases values with
  | nil => rfl
  | cons value rest =>
    obtain ⟨hvalue, hrest⟩ := Bool.and_eq_true_iff.mp h
    rw [plainAll, plain_of_isData hvalue, plainAll_of_areData hrest]

theorem plainEntries_of_entriesAreData {entries : List (String × Value)}
    (h : entriesAreData entries = true) : plainEntries entries = entries := by
  cases entries with
  | nil => rfl
  | cons entry rest =>
    obtain ⟨key, value⟩ := entry
    obtain ⟨hvalue, hrest⟩ := Bool.and_eq_true_iff.mp h
    rw [plainEntries, plain_of_isData hvalue, plainEntries_of_entriesAreData hrest]

end

/-- Without functions, a constant is known from its plain form. -/
theorem eq_of_plain_eq {value value' : Value} (h : value.plain = value'.plain)
    (hdata : value.isData = true) : value' = value := by
  have hdata' : value'.isData = true := by
    rw [← isData_plain, ← h, isData_plain, hdata]
  rw [← plain_of_isData hdata', ← h, plain_of_isData hdata]

/-! ## Entries of plain constants -/

theorem get?_plainEntries (entries : Ordered Value) (key : String) :
    (plainEntries entries).get? key = (entries.get? key).map plain := by
  induction entries with
  | nil => rfl
  | cons entry rest ih =>
    obtain ⟨other, value⟩ := entry
    rw [plainEntries, Ordered.get?_cons, Ordered.get?_cons, ih]
    split <;> rfl

theorem plainEntries_put (entries : Ordered Value) (key : String) (value : Value) :
    plainEntries (entries.put key value) = (plainEntries entries).put key value.plain := by
  induction entries with
  | nil => rfl
  | cons entry rest ih =>
    obtain ⟨other, old⟩ := entry
    rw [Ordered.put, plainEntries, Ordered.put]
    split
    · rfl
    · rw [plainEntries, ih]

theorem plainEntries_putAll (entries more : Ordered Value) :
    plainEntries (entries.putAll more) = (plainEntries entries).putAll (plainEntries more) := by
  induction more generalizing entries with
  | nil => rfl
  | cons entry rest ih =>
    obtain ⟨key, value⟩ := entry
    have hstep : plainEntries ((entries.put key value).putAll rest) =
        ((plainEntries entries).put key value.plain).putAll (plainEntries rest) := by
      rw [ih, plainEntries_put]
    exact hstep

end Value

/-! ## Helpers -/

namespace Helpers

/-- Helpers give constants of one plain form for arguments of one plain form. -/
protected def Blind (helpers : Helpers) : Prop :=
  ∀ {key : String} {helper : Helper}, helpers key = some helper →
    ∀ {args args' : List Value}, Value.plainAll args = Value.plainAll args' →
      (helper args).map Value.plain = (helper args').map Value.plain

theorem foldNumbers_plainAll (f : Float → Float → Float) (acc : Float) (args : List Value) :
    foldNumbers f acc (Value.plainAll args) = foldNumbers f acc args := by
  induction args generalizing acc with
  | nil => rfl
  | cons arg rest ih =>
    cases arg with
    | num x => exact ih (f acc x)
    | _ => rfl

theorem onNumber_plainAll (f : Float → Float) (args : List Value) :
    onNumber f (Value.plainAll args) = onNumber f args := by
  cases args with
  | nil => rfl
  | cons arg rest => cases arg <;> rfl

theorem textOf_plainAll (args : List Value) : textOf (Value.plainAll args) = textOf args := by
  cases args with
  | nil => rfl
  | cons arg rest => rw [Value.plainAll, textOf, textOf, Value.text?_plain]

/-- The helpers of the script language look at numbers and texts only. -/
theorem blind_standard : Helpers.Blind standard := by
  have hplain : ∀ {key helper}, standard key = some helper →
      ∀ args, helper (Value.plainAll args) = helper args := by
    intro key helper hhelper
    unfold standard at hhelper
    split at hhelper <;> cases hhelper
    · exact foldNumbers_plainAll _ _
    · exact foldNumbers_plainAll _ _
    · exact onNumber_plainAll _
    · exact onNumber_plainAll _
    · exact onNumber_plainAll _
    · exact onNumber_plainAll _
    · exact textOf_plainAll
  intro key helper hhelper args args' hargs
  rw [← hplain hhelper args, hargs, hplain hhelper args']

end Helpers

/-! ## Frames -/

/-- Two frames in one unit whose local values have the same plain forms. -/
structure Frame.SameForm (frame frame' : Frame) : Prop where
  unit : frame.unit = frame'.unit
  scope : Value.plainEntries frame.scope = Value.plainEntries frame'.scope

theorem Frame.SameForm.refl (frame : Frame) : frame.SameForm frame :=
  ⟨rfl, rfl⟩

theorem Frame.SameForm.get? {frame frame' : Frame} (h : frame.SameForm frame') (key : String) :
    (frame.scope.get? key).map Value.plain = (frame'.scope.get? key).map Value.plain := by
  rw [← Value.get?_plainEntries, ← Value.get?_plainEntries, h.scope]

/-! ## Operators -/

namespace Evaluation

/-- Only strings are put behind or before the texts of arrays. -/
theorem add_plain (left right : Value) : add left.plain right.plain = add left right := by
  have htext : ∀ items, (Value.array (Value.plainAll items)).text? = (Value.array items).text? :=
    fun items => Value.text?_plain (.array items)
  cases left with
  | str a =>
    cases right with
    | array items => simp only [add, Value.plain, htext]
    | _ => rfl
  | array items =>
    cases right with
    | str b => simp only [add, Value.plain, htext]
    | _ => rfl
  | _ => cases right <;> rfl

theorem binary_plain (op : BinaryOp) (left right : Value) :
    binary op left.plain right.plain = binary op left right := by
  have harithmetic : ∀ f, arithmetic f left.plain right.plain = arithmetic f left right := by
    intro f
    cases left <;> cases right <;> rfl
  have hequal : strictEqual left.plain right.plain = strictEqual left right := by
    unfold strictEqual
    rw [Value.isReference_plain, Value.isReference_plain]
    split
    · rfl
    · next hreference =>
      rw [Bool.not_eq_true, Bool.or_eq_false_iff] at hreference
      rw [Value.plain_of_not_isReference hreference.1, Value.plain_of_not_isReference hreference.2]
  cases op with
  | add => exact add_plain left right
  | sub | mul | div | rem => exact harithmetic _
  | strictEq | strictNe => rw [binary, binary, hequal]

theorem unary_plain (op : UnaryOp) (arg : Value) : unary op arg.plain = unary op arg := by
  cases op with
  | not => rw [unary, unary, Value.isTruthy_plain]
  | neg | plus => cases arg <;> rfl

theorem decides_plain (op : LogicalOp) (left : Value) :
    decides op left.plain = decides op left := by
  cases op with
  | and | or => rw [decides, decides, Value.isTruthy_plain]
  | nullish => rw [decides, decides, Value.isNullish_plain]

/-! ## Outcomes with the same plain form -/

section Alike

variable {α β γ δ : Type} {f : α → γ} {g : β → δ}

/-- Two outcomes agree up to what a function forgets. -/
def Alike (f : α → γ) (a b : Except Obstacle α) : Prop :=
  a.map f = b.map f

namespace Alike

variable {a b : Except Obstacle α}

theorem ok {x y : α} (h : f x = f y) : Alike f (.ok x) (.ok y) :=
  congrArg Except.ok h

theorem cases (h : Alike f a b) :
    (∃ obstacle, a = .error obstacle ∧ b = .error obstacle) ∨
      ∃ x y, a = .ok x ∧ b = .ok y ∧ f x = f y := by
  cases a with
  | error obstacle =>
    cases b with
    | error obstacle' =>
      cases h
      exact .inl ⟨obstacle, rfl, rfl⟩
    | ok y => cases h
  | ok x =>
    cases b with
    | error obstacle' => cases h
    | ok y => exact .inr ⟨x, y, rfl, rfl, Except.ok.inj h⟩

theorem bind (h : Alike f a b) {k l : α → Except Obstacle β}
    (hk : ∀ x y, f x = f y → Alike g (k x) (l y)) : Alike g (a >>= k) (b >>= l) := by
  obtain ⟨obstacle, rfl, rfl⟩ | ⟨x, y, rfl, rfl, hsame⟩ := h.cases
  · rfl
  · exact hk x y hsame

theorem mapError (h : Alike f a b) (rename : Obstacle → Obstacle) :
    Alike f (a.mapError rename) (b.mapError rename) := by
  obtain ⟨obstacle, rfl, rfl⟩ | ⟨x, y, rfl, rfl, hsame⟩ := h.cases
  · rfl
  · exact .ok hsame

end Alike

end Alike

/-! ## Names and members -/

/-- On a level, plain expressions have the values of the expressions they stand for. -/
def Blind (level : Level) : Prop :=
  ∀ {frame frame' : Frame}, frame.SameForm frame' → ∀ e : Expr,
    Alike Value.plain (level.eval frame e) (level.eval frame' e.plain)

section Steps

variable {env : Env} {below : Level} {frame frame' : Frame}

theorem alike_name (hframe : frame.SameForm frame') (identifier : String) :
    Alike Value.plain (name env below frame identifier) (name env below frame' identifier) := by
  have hget := hframe.get? identifier
  unfold name
  rw [hframe.unit]
  cases hlocal : frame.scope.get? identifier with
  | some value =>
    cases hlocal' : frame'.scope.get? identifier with
    | some value' =>
      rw [hlocal, hlocal'] at hget
      exact .ok (Option.some.inj hget)
    | none =>
      rw [hlocal, hlocal'] at hget
      cases hget
  | none =>
    cases hlocal' : frame'.scope.get? identifier with
    | some value' =>
      rw [hlocal, hlocal'] at hget
      cases hget
    | none => rfl

theorem alike_member {value value' : Value} (h : value.plain = value'.plain) (key : String) :
    Alike Value.plain (member below value key) (member below value' key) := by
  cases Value.sameForm_of_plain_eq h with
  | @object members members' hmembers =>
    refine .ok ?_
    rw [Value.plain_getD, Value.plain_getD, ← Value.get?_plainEntries, ← Value.get?_plainEntries,
      hmembers]
  | @array items items' hitems =>
    rw [Value.plainAll_eq_map, Value.plainAll_eq_map] at hitems
    have hlength : items.length = items'.length := by simpa using congrArg List.length hitems
    simp only [member, hlength]
    split
    · rfl
    · split
      · refine .ok ?_
        rw [Value.plain_getD, Value.plain_getD, ← List.getElem?_map, ← List.getElem?_map, hitems]
      · rfl
  | _ => rfl

/-- The frame of a call: the values that the function sees, and its arguments. -/
def callFrame (unit : SourceUnit) (scope : Ordered Value) (params : List String)
    (args : List Value) : Frame :=
  ⟨unit, scope.putAll (params.zipIdx.map fun param =>
    (param.1, args[param.2]?.getD .undefined))⟩

theorem sameForm_callFrame (unit : SourceUnit) {scope scope' : Ordered Value}
    (hscope : Value.plainEntries scope = Value.plainEntries scope') (params : List String)
    {args args' : List Value} (hargs : Value.plainAll args = Value.plainAll args') :
    (callFrame unit scope params args).SameForm (callFrame unit scope' params args') := by
  refine ⟨rfl, ?_⟩
  rw [Value.plainAll_eq_map, Value.plainAll_eq_map] at hargs
  rw [callFrame, callFrame, Value.plainEntries_putAll, Value.plainEntries_putAll, hscope]
  simp only [Value.plainEntries_eq_map, List.map_map, Function.comp_def, Value.plain_getD,
    ← List.getElem?_map, hargs]

theorem alike_apply (hblind : Blind below) {callee callee' : Value}
    (hcallee : callee.plain = callee'.plain) {args args' : List Value}
    (hargs : Value.plainAll args = Value.plainAll args') :
    Alike Value.plain (apply below callee args) (apply below callee' args') := by
  cases Value.sameForm_of_plain_eq hcallee with
  | @function params body body' unit scope scope' hbody hscope =>
    -- Both bodies are compared with their common plain form.
    have hcall := hblind (sameForm_callFrame unit hscope params hargs) body
    rw [hbody] at hcall
    exact hcall.trans (hblind (.refl _) body').symm
  | _ => rfl

/-- The key of a helper does not depend on places, nor on the local values. -/
theorem helperKey?_plain (hframe : frame.SameForm frame') (callee : Expr) :
    helperKey? frame' callee.plain = helperKey? frame callee := by
  have hbinds : ∀ identifier, frame'.binds identifier = frame.binds identifier := by
    intro identifier
    have hget := congrArg Option.isSome (hframe.get? identifier)
    rw [Option.isSome_map, Option.isSome_map] at hget
    have hhas : frame'.scope.has identifier = frame.scope.has identifier := hget.symm
    rw [Frame.binds, Frame.binds, hframe.unit, hhas]
  have hliteral : ∀ span x, helperKey? frame' (Expr.num span x).plain = none := by
    intro span x
    rw [Expr.plain]
    split <;> rfl
  cases callee with
  | num span x => exact hliteral span x
  | ident span identifier => simp only [Expr.plain, helperKey?, hbinds, hframe.unit]
  | field span target property =>
    cases target with
    | num span x =>
      simp only [Expr.plain]
      split <;> rfl
    | ident span identifier => simp only [Expr.plain, helperKey?, hbinds, hframe.unit]
    | _ => rfl
  | _ => rfl

end Steps

/-! ## Expressions -/

section Expressions

variable {env : Env} {below : Level} {frame frame' : Frame}

mutual

theorem alike_eval (hhelpers : env.helpers.Blind) (hblind : Blind below)
    (hframe : frame.SameForm frame') (e : Expr) :
    Alike Value.plain (eval env below frame e) (eval env below frame' e.plain) := by
  cases e with
  | str | bool | null => rfl
  | num span value =>
    rw [Expr.plain]
    split
    · next hnegative =>
      exact .ok (congrArg Value.num (Number.text_of_isNegative hnegative).2.2.symm)
    · rfl
  | ident span identifier => exact alike_name hframe identifier
  | field span target property =>
    simp only [eval, Expr.plain]
    refine (alike_eval hhelpers hblind hframe target).bind fun value value' hvalue => ?_
    exact alike_member hvalue property
  | index span target key =>
    simp only [eval, Expr.plain]
    refine (alike_eval hhelpers hblind hframe target).bind fun value value' hvalue => ?_
    obtain ⟨obstacle, hkey, hkey'⟩ | ⟨keyValue, keyValue', hkey, hkey', hsame⟩ :=
      (alike_eval hhelpers hblind hframe key).cases
    · rw [hkey, hkey']
      rfl
    · rw [hkey, hkey']
      dsimp only
      rw [← Value.key?_plain keyValue, hsame, Value.key?_plain]
      cases keyValue'.key? with
      | some property => exact alike_member hvalue property
      | none => rfl
  | call span callee args =>
    simp only [eval, Expr.plain, helperKey?_plain hframe]
    have hargs := (alike_evalAll hhelpers hblind hframe args).mapError Obstacle.ofArgument
    cases hhelper : (helperKey? frame callee).bind env.helpers with
    | some helper =>
      obtain ⟨key, -, hkey⟩ := Option.bind_eq_some_iff.mp hhelper
      refine hargs.bind fun values values' hvalues => ?_
      have hresult := hhelpers hkey hvalues
      cases hvalue : helper values with
      | none =>
        rw [hvalue, Option.map_none, eq_comm, Option.map_eq_none_iff] at hresult
        rw [hresult]
        rfl
      | some value =>
        rw [hvalue, Option.map_some, eq_comm] at hresult
        obtain ⟨value', hvalue', hsame⟩ := Option.map_eq_some_iff.mp hresult
        rw [hvalue']
        exact .ok hsame.symm
    | none =>
      refine ((alike_eval hhelpers hblind hframe callee).mapError _).bind
        fun function function' hfunction => ?_
      rw [← Value.isFunction_plain function, hfunction, Value.isFunction_plain]
      split
      · exact hargs.bind fun values values' hvalues => alike_apply hblind hfunction hvalues
      · rfl
  | binary span op left right =>
    simp only [eval, Expr.plain]
    refine (alike_eval hhelpers hblind hframe left).bind fun a a' ha => ?_
    refine (alike_eval hhelpers hblind hframe right).bind fun b b' hb => ?_
    rw [← binary_plain, ha, hb, binary_plain]
    rfl
  | unary span op arg =>
    simp only [eval, Expr.plain]
    refine (alike_eval hhelpers hblind hframe arg).bind fun value value' hvalue => ?_
    rw [← unary_plain, hvalue, unary_plain]
    rfl
  | template span texts holes =>
    simp only [eval, Expr.plain]
    refine (alike_evalTemplate hhelpers hblind hframe texts holes).bind fun text text' htext => ?_
    exact .ok (congrArg Value.str htext)
  | object span members =>
    simp only [eval, Expr.plain]
    refine (alike_evalMembers hhelpers hblind hframe rfl members).bind ?_
    exact fun values values' hvalues => .ok (congrArg Value.object hvalues)
  | array span items =>
    simp only [eval, Expr.plain]
    refine (alike_evalAll hhelpers hblind hframe items).bind ?_
    exact fun values values' hvalues => .ok (congrArg Value.array hvalues)
  | function span params body =>
    refine .ok ?_
    rw [Value.plain, Value.plain, Expr.plain_plain, hframe.unit, hframe.scope]
  | conditional span test yes no =>
    simp only [eval, Expr.plain]
    refine (alike_eval hhelpers hblind hframe test).bind fun value value' hvalue => ?_
    rw [← Value.isTruthy_plain value, hvalue, Value.isTruthy_plain]
    split
    · exact alike_eval hhelpers hblind hframe yes
    · exact alike_eval hhelpers hblind hframe no
  | logical span op left right =>
    simp only [eval, Expr.plain]
    refine (alike_eval hhelpers hblind hframe left).bind fun value value' hvalue => ?_
    rw [← decides_plain op value, hvalue, decides_plain]
    split
    · exact .ok hvalue
    · exact alike_eval hhelpers hblind hframe right

theorem alike_evalAll (hhelpers : env.helpers.Blind) (hblind : Blind below)
    (hframe : frame.SameForm frame') (items : List Expr) :
    Alike Value.plainAll (evalAll env below frame items)
      (evalAll env below frame' (Expr.plainAll items)) := by
  cases items with
  | nil => rfl
  | cons e rest =>
    simp only [evalAll, Expr.plainAll]
    refine (alike_eval hhelpers hblind hframe e).bind fun value value' hvalue => ?_
    refine (alike_evalAll hhelpers hblind hframe rest).bind fun values values' hvalues => ?_
    exact .ok (by rw [Value.plainAll, Value.plainAll, hvalue, hvalues])

theorem alike_evalTemplate (hhelpers : env.helpers.Blind) (hblind : Blind below)
    (hframe : frame.SameForm frame') (texts : List String) (holes : List Expr) :
    Alike id (evalTemplate env below frame texts holes)
      (evalTemplate env below frame' texts (Expr.plainAll holes)) := by
  cases holes with
  | nil => rfl
  | cons hole holes =>
    cases texts with
    | nil => rfl
    | cons text texts =>
      simp only [evalTemplate, Expr.plainAll]
      refine (alike_eval hhelpers hblind hframe hole).bind fun value value' hvalue => ?_
      rw [← Value.text?_plain value, hvalue, Value.text?_plain]
      cases value'.text? with
      | none => rfl
      | some inner =>
        refine (alike_evalTemplate hhelpers hblind hframe texts holes).bind ?_
        intro rest rest' hrest
        exact .ok (congrArg (text ++ inner ++ ·) hrest)

theorem alike_evalMembers (hhelpers : env.helpers.Blind) (hblind : Blind below)
    (hframe : frame.SameForm frame') {written written' : Ordered Value}
    (hwritten : Value.plainEntries written = Value.plainEntries written')
    (members : List Member) :
    Alike Value.plainEntries (evalMembers env below frame written members)
      (evalMembers env below frame' written' (Expr.plainMembers members)) := by
  have hput : ∀ key {value value' : Value}, value.plain = value'.plain →
      Value.plainEntries (written.put key value) =
        Value.plainEntries (written'.put key value') := by
    intro key value value' hvalue
    rw [Value.plainEntries_put, Value.plainEntries_put, hwritten, hvalue]
  cases members with
  | nil => exact .ok hwritten
  | cons member rest =>
    cases member with
    | named key e =>
      simp only [evalMembers, Expr.plainMembers]
      refine (alike_eval hhelpers hblind hframe e).bind fun value value' hvalue => ?_
      exact alike_evalMembers hhelpers hblind hframe (hput key hvalue) rest
    | computed key e =>
      simp only [evalMembers, Expr.plainMembers]
      refine (alike_eval hhelpers hblind hframe key).bind fun keyValue keyValue' hkey => ?_
      rw [← Value.key?_plain keyValue, hkey, Value.key?_plain]
      cases keyValue'.key? with
      | none => rfl
      | some property =>
        refine (alike_eval hhelpers hblind hframe e).bind fun value value' hvalue => ?_
        exact alike_evalMembers hhelpers hblind hframe (hput property hvalue) rest
    | shorthand identifier =>
      simp only [evalMembers, Expr.plainMembers]
      refine (alike_name hframe identifier).bind fun value value' hvalue => ?_
      exact alike_evalMembers hhelpers hblind hframe (hput identifier hvalue) rest
    | spread source =>
      simp only [evalMembers, Expr.plainMembers]
      refine (alike_eval hhelpers hblind hframe source).bind fun value value' hvalue => ?_
      cases Value.sameForm_of_plain_eq hvalue with
      | object hmembers =>
        refine alike_evalMembers hhelpers hblind hframe ?_ rest
        rw [Value.plainEntries_putAll, Value.plainEntries_putAll, hwritten, hmembers]
      | undefined | null => exact alike_evalMembers hhelpers hblind hframe hwritten rest
      | _ => rfl

end

end Expressions

/-! ## Levels -/

theorem blind_level {env : Env} (hhelpers : env.helpers.Blind) (n : Nat) :
    Blind (level env n) := by
  induction n with
  | zero => exact fun _ _ => rfl
  | succ n ih => exact alike_eval hhelpers ih

end Evaluation

/-- An expression has the constant of its plain form, or meets the same obstacle. -/
theorem Env.evaluate_plain {env : Env} (hhelpers : env.helpers.Blind)
    (unit : SourceUnit) (e : Expr) :
    (env.evaluate unit e).map Value.plain = (env.evaluate unit e.plain).map Value.plain :=
  Evaluation.blind_level hhelpers (Evaluation.maxDepth + 1) (.refl _) e

theorem ok_of_map_plain_eq {outcome outcome' : Evaluated}
    (h : outcome.map Value.plain = outcome'.map Value.plain) {value : Value}
    (hdata : value.isData = true) (hvalue : outcome = .ok value) : outcome' = .ok value := by
  subst hvalue
  cases outcome' with
  | error obstacle => cases h
  | ok value' => rw [Value.eq_of_plain_eq (Except.ok.inj h) hdata]

end AtomicStyle
