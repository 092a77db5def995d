import AtomicStyle.Proofs.PlainForm
import AtomicStyle.Proofs.SourceReader

/-!
# Expressions from their texts

The printer puts an operand in parentheses only if it is an operation on several operands or a
function.  Its text shows an expression wherever no member or call is taken of a signed expression,
no fixed text of a template looks like the start of an expression or hides the closing quote, and
the literal numbers are finite and other than negative zero.

Main results:
1. `Source.reads`: such an expression is read back from its text in its plain form.
2. `Expr.toSource_plain`: the text shows no more than the plain form.
3. `Expr.toSource_faithful`: expressions with one text have one constant.
-/

namespace AtomicStyle

namespace Expr

/-- Whether an expression is printed with a sign in front of it. -/
def isSigned : Expr → Bool
  | num _ value => Number.isNegative value
  | unary .. => true
  | _ => false

/-- Whether the names in an expression are names, and the texts of a template stand around its
expressions.  The words for literals name nothing. -/
def isNamed : Expr → Bool
  | ident _ name => Source.isName name && !literalWords.contains name
  | field _ _ name => Source.isName name
  | template _ texts holes => texts.length == holes.length + 1
  | object _ members => members.all fun
    | .shorthand name => Source.isName name
    | _ => true
  | function _ params _ => params.all Source.isName
  | _ => true
where
  literalWords : List String := ["true", "false", "null"]

/-- Whether the text of an expression shows what its parts are. -/
def isClear : Expr → Bool
  | num _ value => Number.isUnsigned value || Number.isNegative value
  | field _ target _ | index _ target _ => !target.isSigned
  | call _ callee _ => !callee.isSigned
  | template _ texts _ =>
    texts.all (fun text => Source.hasNoHole text.toList) &&
      texts.getLast?.all fun text => text.toList.getLast? != some '\\'
  | _ => true

mutual

/-- Whether an expression and all of its parts have a property. -/
def everywhere (p : Expr → Bool) : Expr → Bool
  | field span target name => p (field span target name) && target.everywhere p
  | index span target key =>
    p (index span target key) && target.everywhere p && key.everywhere p
  | call span callee args =>
    p (call span callee args) && callee.everywhere p && everywhereAll p args
  | binary span op left right =>
    p (binary span op left right) && left.everywhere p && right.everywhere p
  | unary span op arg => p (unary span op arg) && arg.everywhere p
  | template span texts holes => p (template span texts holes) && everywhereAll p holes
  | object span members => p (object span members) && everywhereMembers p members
  | array span items => p (array span items) && everywhereAll p items
  | function span params body => p (function span params body) && body.everywhere p
  | conditional span test yes no =>
    p (conditional span test yes no) && test.everywhere p && yes.everywhere p && no.everywhere p
  | logical span op left right =>
    p (logical span op left right) && left.everywhere p && right.everywhere p
  | e => p e

def everywhereAll (p : Expr → Bool) : List Expr → Bool
  | [] => true
  | e :: rest => e.everywhere p && everywhereAll p rest

def everywhereMembers (p : Expr → Bool) : List Member → Bool
  | [] => true
  | .named _ value :: rest => value.everywhere p && everywhereMembers p rest
  | .computed key value :: rest =>
    key.everywhere p && value.everywhere p && everywhereMembers p rest
  | .shorthand _ :: rest => everywhereMembers p rest
  | .spread source :: rest => source.everywhere p && everywhereMembers p rest

end

/-! ## The text of a plain form -/

theorem operand_plain (e : Expr) (text : String) : operand e.plain text = operand e text := by
  have hcompound : e.plain.isCompound = e.isCompound := by
    cases e with
    | num span value =>
      rw [plain]
      split <;> rfl
    | _ => rfl
  rw [operand, operand, hcompound]

theorem functionBody_plain (body : Expr) (text : String) :
    functionBody body.plain text = functionBody body text := by
  cases body with
  | num span value =>
    rw [plain]
    split <;> rfl
  | _ => rfl

mutual

/-- A text shows no more of an expression than its plain form. -/
theorem toSource_plain (e : Expr) : e.plain.toSource = e.toSource := by
  cases e with
  | num span value =>
    rw [plain]
    split
    · next hnegative =>
      rw [toSource, toSource, toSource, (Number.text_of_isNegative hnegative).2.1]
      rfl
    · rw [toSource, toSource]
  | str | bool | null | ident => rfl
  | field span target name => rw [plain, toSource, toSource, operand_plain, toSource_plain target]
  | index span target key =>
    rw [plain, toSource, toSource, operand_plain, toSource_plain target, toSource_plain key]
  | call span callee args =>
    rw [plain, toSource, toSource, operand_plain, toSource_plain callee, sources_plainAll args]
  | binary span op left right =>
    rw [plain, toSource, toSource, operand_plain, operand_plain, toSource_plain left,
      toSource_plain right]
  | unary span op arg => rw [plain, toSource, toSource, operand_plain, toSource_plain arg]
  | template span texts holes => rw [plain, toSource, toSource, sources_plainAll holes]
  | object span members => rw [plain, toSource, toSource, memberSources_plainMembers members]
  | array span items => rw [plain, toSource, toSource, sources_plainAll items]
  | function span params body =>
    rw [plain, toSource, toSource, functionBody_plain, toSource_plain body]
  | conditional span test yes no =>
    rw [plain, toSource, toSource, operand_plain, operand_plain, operand_plain,
      toSource_plain test, toSource_plain yes, toSource_plain no]
  | logical span op left right =>
    rw [plain, toSource, toSource, operand_plain, operand_plain, toSource_plain left,
      toSource_plain right]

theorem sources_plainAll (items : List Expr) : sources (plainAll items) = sources items := by
  cases items with
  | nil => rfl
  | cons e rest => rw [plainAll, sources, sources, toSource_plain e, sources_plainAll rest]

theorem memberSources_plainMembers (members : List Member) :
    memberSources (plainMembers members) = memberSources members := by
  cases members with
  | nil => rfl
  | cons member rest =>
    cases member with
    | named key value =>
      rw [plainMembers, memberSources, memberSources, toSource_plain value,
        memberSources_plainMembers rest]
    | computed key value =>
      rw [plainMembers, memberSources, memberSources, toSource_plain key, toSource_plain value,
        memberSources_plainMembers rest]
    | shorthand name =>
      rw [plainMembers, memberSources, memberSources, memberSources_plainMembers rest]
    | spread source =>
      rw [plainMembers, memberSources, memberSources, toSource_plain source,
        memberSources_plainMembers rest]

end

end Expr

namespace Member

/-- The text of a member. -/
def toSource : Member → String
  | named key value =>
    (if isIdentifier key then key else Text.quoted key) ++ ": " ++ value.toSource
  | computed key value => "[" ++ key.toSource ++ "]: " ++ value.toSource
  | shorthand name => name
  | spread source => "..." ++ source.toSource

/-- A member with plain expressions. -/
def plain : Member → Member
  | named key value => .named key value.plain
  | computed key value => .computed key.plain value.plain
  | shorthand name => .shorthand name
  | spread source => .spread source.plain

theorem memberSources_eq_map (members : List Member) :
    Expr.memberSources members = members.map toSource := by
  induction members with
  | nil => rfl
  | cons member rest ih => cases member <;> rw [Expr.memberSources, ih] <;> rfl

theorem plainMembers_eq_map (members : List Member) :
    Expr.plainMembers members = members.map plain := by
  induction members with
  | nil => rfl
  | cons member rest ih => cases member <;> rw [Expr.plainMembers, ih] <;> rfl

end Member

namespace Source

/-! ## Printed operands -/

/-- The characters of an expression. -/
def chars (e : Expr) : List Char :=
  e.toSource.toList

/-- The characters of an expression as an operand. -/
def operandChars (e : Expr) : List Char :=
  (e.operand e.toSource).toList

theorem operandChars_of_isCompound {e : Expr} (h : e.isCompound = true) :
    operandChars e = '(' :: (chars e ++ [')']) := by
  simp [operandChars, Expr.operand, h, chars]

theorem operandChars_of_not_isCompound {e : Expr} (h : e.isCompound = false) :
    operandChars e = chars e := by
  simp [operandChars, Expr.operand, h, chars]

section Chars

variable (span : Span)

theorem chars_str (value : String) :
    chars (.str span value) = '"' :: (value.toList.flatMap Text.escaped ++ ['"']) := by
  simp [chars, Expr.toSource, Text.quoted]

theorem chars_bool (value : Bool) :
    chars (.bool span value) = (if value then "true" else "false").toList := by
  rw [chars, Expr.toSource]

theorem chars_null : chars (.null span) = ['n', 'u', 'l', 'l'] := by
  simp [chars, Expr.toSource]

theorem chars_function (params : List String) (body : Expr) :
    chars (.function span params body) =
      '(' :: ((String.intercalate ", " params).toList ++ ')' :: ' ' :: '=' :: '>' :: ' ' ::
        (Expr.functionBody body body.toSource).toList) := by
  simp [chars, Expr.toSource]

theorem chars_object_nil : chars (.object span []) = ['\x7b', '\x7d'] := by
  simp [chars, Expr.toSource, Expr.memberSources]

theorem chars_object {members : List Member} (h : members ≠ []) :
    chars (.object span members) =
      '\x7b' :: ' ' :: ((String.intercalate ", " (Expr.memberSources members)).toList ++
        [' ', '\x7d']) := by
  have hne : Expr.memberSources members ≠ [] := by
    cases members with
    | nil => exact absurd rfl h
    | cons member rest => cases member <;> simp [Expr.memberSources]
  rw [chars, Expr.toSource]
  split
  · next heq => exact absurd heq hne
  · simp

theorem exists_chars_object (members : List Member) :
    ∃ s, chars (.object span members) = '\x7b' :: s := by
  cases members with
  | nil => exact ⟨_, chars_object_nil span⟩
  | cons member members => exact ⟨_, chars_object span (List.cons_ne_nil _ _)⟩

theorem chars_field (target : Expr) (name : String) :
    chars (.field span target name) = operandChars target ++ '.' :: name.toList := by
  simp [chars, Expr.toSource, operandChars]

theorem chars_index (target key : Expr) :
    chars (.index span target key) = operandChars target ++ '[' :: (chars key ++ [']']) := by
  simp [chars, Expr.toSource, operandChars]

theorem chars_call (callee : Expr) (args : List Expr) :
    chars (.call span callee args) =
      operandChars callee ++
        '(' :: ((String.intercalate ", " (Expr.sources args)).toList ++ [')']) := by
  simp [chars, Expr.toSource, operandChars]

theorem chars_binary (op : BinaryOp) (left right : Expr) :
    chars (.binary span op left right) =
      operandChars left ++ ' ' :: (op.symbol.toList ++ ' ' :: operandChars right) := by
  simp [chars, Expr.toSource, operandChars]

theorem chars_logical (op : LogicalOp) (left right : Expr) :
    chars (.logical span op left right) =
      operandChars left ++ ' ' :: (op.symbol.toList ++ ' ' :: operandChars right) := by
  simp [chars, Expr.toSource, operandChars]

theorem chars_unary (op : UnaryOp) (arg : Expr) :
    chars (.unary span op arg) = op.symbol.toList ++ operandChars arg := by
  simp [chars, Expr.toSource, operandChars]

theorem chars_conditional (test yes no : Expr) :
    chars (.conditional span test yes no) =
      operandChars test ++ ' ' :: '?' :: ' ' :: (operandChars yes ++
        ' ' :: ':' :: ' ' :: operandChars no) := by
  simp [chars, Expr.toSource, operandChars]

theorem chars_array (items : List Expr) :
    chars (.array span items) =
      '[' :: ((String.intercalate ", " (Expr.sources items)).toList ++ [']']) := by
  simp [chars, Expr.toSource]

theorem chars_template (texts : List String) (holes : List Expr) :
    chars (.template span texts holes) =
      '\x60' :: ((Expr.templateSource texts (Expr.sources holes)).toList ++ ['\x60']) := by
  simp [chars, Expr.toSource]

end Chars

/-! ## What an operand starts with -/

/-- Whether a character ends no parameter, and may stand behind an operand. -/
def endsNoParam (c : Char) : Bool :=
  !isNameChar c && c != ',' && c != ')'

theorem not_startsParams_append {name : List Char} (hname : name.all isNameChar = true)
    {rest : List Char} (hrest : rest.head?.any endsNoParam = true) :
    startsParams (name ++ rest) = false := by
  cases rest with
  | nil => cases hrest
  | cons c rest =>
    simp only [List.head?_cons, Option.any_some, endsNoParam, Bool.and_eq_true, Bool.not_eq_true',
      bne_iff_ne] at hrest
    rw [startsParams, List.dropWhile_append_of_pos (List.all_eq_true.mp hname)]
    simp [hrest]

/-- A text in front of `rest` is not taken for a function, and behind a parenthesis it is not taken
for parameters. -/
structure Opening (s rest : List Char) : Prop where
  function : startsFunction s = false
  params : rest.head?.any endsNoParam = true → startsParams s = false

namespace Opening

variable {rest : List Char}

theorem mark {c : Char} (hc : endsNoParam c = true) (hparen : c ≠ '(') (s : List Char) :
    Opening (c :: s) rest where
  function := by simp [startsFunction, hparen]
  params _ := @not_startsParams_append [] rfl _ hc

/-- In parentheses there is nothing that looks like parameters. -/
theorem parens {s : List Char} (h : startsParams s = false) : Opening ('(' :: s) rest where
  function := by simp [startsFunction, h]
  params _ := @not_startsParams_append [] rfl _ rfl

theorem word {name : List Char} (hname : name.all isNameChar = true) (hne : name ≠ []) :
    Opening (name ++ rest) rest where
  function := by
    cases name with
    | nil => exact absurd rfl hne
    | cons c name =>
      have hc := List.all_eq_true.mp hname c List.mem_cons_self
      have hparen : c ≠ '(' := ne_of_isNameChar hc rfl
      simp [startsFunction, hparen]
  params := not_startsParams_append hname

/-- What follows the start of a text does not matter. -/
theorem of_start {s : List Char} {c : Char} {after : List Char} (hc : endsNoParam c = true)
    (h : Opening (s ++ c :: after) (c :: after)) : Opening (s ++ c :: after) rest where
  function := h.function
  params _ := h.params hc

theorem written {s : List Char} {d : Number.Decimal} (h : Number.Written s d) :
    Opening (s ++ rest) rest := by
  have hall : ∀ {ds : List Char}, (∀ d ∈ ds, d.isDigit = true) → ds.all isNameChar = true :=
    fun hdigits => List.all_eq_true.mpr fun d hd => isNameChar_of_isDigit (hdigits d hd)
  cases h with
  | whole hne hdigits => exact word (hall hdigits) hne
  | parted hne hdigits hpart hdigits' =>
    rw [List.append_assoc]
    exact of_start rfl (word (hall hdigits) hne)

end Opening

/-- The start of an operand. -/
theorem opening_operandChars {e : Expr} (hnamed : e.everywhere Expr.isNamed = true)
    (hclear : e.everywhere Expr.isClear = true) (rest : List Char) :
    Opening (operandChars e ++ rest) rest := by
  cases e with
  | str span value =>
    rw [operandChars_of_not_isCompound rfl, chars_str]
    exact .mark rfl (by decide) _
  | num span value =>
    simp only [Expr.everywhere, Expr.isClear, Bool.or_eq_true] at hclear
    rw [operandChars_of_not_isCompound rfl, chars, Expr.toSource]
    obtain hunsigned | hnegative := hclear
    · obtain ⟨d, hwritten⟩ := Number.written_text hunsigned
      exact .written hwritten
    · rw [(Number.text_of_isNegative hnegative).2.1, String.toList_append]
      exact .mark rfl (by decide) _
  | bool span value =>
    rw [operandChars_of_not_isCompound rfl, chars_bool]
    cases value <;> exact .word (by decide) (by decide)
  | null span =>
    rw [operandChars_of_not_isCompound rfl, chars_null]
    exact .word rfl (List.cons_ne_nil _ _)
  | ident span name =>
    simp only [Expr.everywhere, Expr.isNamed, Bool.and_eq_true] at hnamed
    obtain ⟨hall, c, s, htext, -⟩ := isName_iff.mp hnamed.1
    have hne : name.toList ≠ [] := by simp [htext]
    exact .word hall hne
  | field span target name =>
    simp only [Expr.everywhere, Bool.and_eq_true] at hnamed hclear
    rw [operandChars_of_not_isCompound rfl, chars_field, List.append_assoc]
    exact .of_start rfl (opening_operandChars hnamed.2 hclear.2 _)
  | index span target key =>
    simp only [Expr.everywhere, Bool.and_eq_true] at hnamed hclear
    rw [operandChars_of_not_isCompound rfl, chars_index, List.append_assoc]
    exact .of_start rfl (opening_operandChars hnamed.1.2 hclear.1.2 _)
  | call span callee args =>
    simp only [Expr.everywhere, Bool.and_eq_true] at hnamed hclear
    rw [operandChars_of_not_isCompound rfl, chars_call, List.append_assoc]
    exact .of_start rfl (opening_operandChars hnamed.1.2 hclear.1.2 _)
  | unary span op arg =>
    rw [operandChars_of_not_isCompound rfl, chars_unary]
    cases op <;> exact .mark rfl (by decide) _
  | template span texts holes =>
    rw [operandChars_of_not_isCompound rfl, chars_template]
    exact .mark rfl (by decide) _
  | object span members =>
    obtain ⟨s, hs⟩ := exists_chars_object span members
    rw [operandChars_of_not_isCompound rfl, hs]
    exact .mark rfl (by decide) _
  | array span items =>
    rw [operandChars_of_not_isCompound rfl, chars_array]
    exact .mark rfl (by decide) _
  | binary span op left right =>
    simp only [Expr.everywhere, Bool.and_eq_true] at hnamed hclear
    rw [operandChars_of_isCompound rfl, chars_binary, List.cons_append, List.append_assoc,
      List.append_assoc]
    exact .parens ((opening_operandChars hnamed.1.2 hclear.1.2 _).params rfl)
  | conditional span test yes no =>
    simp only [Expr.everywhere, Bool.and_eq_true] at hnamed hclear
    rw [operandChars_of_isCompound rfl, chars_conditional, List.cons_append, List.append_assoc,
      List.append_assoc]
    exact .parens ((opening_operandChars hnamed.1.1.2 hclear.1.1.2 _).params rfl)
  | logical span op left right =>
    simp only [Expr.everywhere, Bool.and_eq_true] at hnamed hclear
    rw [operandChars_of_isCompound rfl, chars_logical, List.cons_append, List.append_assoc,
      List.append_assoc]
    exact .parens ((opening_operandChars hnamed.1.2 hclear.1.2 _).params rfl)
  | function span params body =>
    rw [operandChars_of_isCompound rfl, chars_function]
    exact .parens (@not_startsParams_append [] rfl _ rfl)

/-! ## Expressions from their texts -/

/-- An expression is read back from its text: as an expression, as an operand, and as what members
and calls are taken of.  The last form leaves out signed expressions: a member behind one of them is
taken of what follows the sign. -/
structure Reads (reader : Reader) (e : Expr) : Prop where
  expr {rest : List Char} : endsExpr rest = true →
    reader.expr? (chars e ++ rest) = some (e.plain, rest)
  operand {rest : List Char} : endsOperand rest = true →
    reader.operand? (operandChars e ++ rest) = some (e.plain, rest)
  target {rest : List Char} : e.isSigned = false → endsToken rest = true →
    reader.operand? (operandChars e ++ rest) = reader.suffixes? e.plain rest

section Reads

variable {reader : Reader} {e : Expr}

theorem reads_of_compound (hcompound : e.isCompound = true)
    (hexpr : ∀ {rest}, endsExpr rest = true →
      reader.expr? (chars e ++ rest) = some (e.plain, rest)) : Reads reader e := by
  have htarget : ∀ rest,
      reader.operand? (operandChars e ++ rest) = reader.suffixes? e.plain rest := by
    intro rest
    rw [operandChars_of_isCompound hcompound, List.cons_append, List.append_assoc,
      List.singleton_append]
    exact operand?_of_atom? rfl (atom?_parens (hexpr rfl))
  refine ⟨hexpr, fun {rest} hrest => ?_, fun _ _ => htarget _⟩
  rw [htarget, suffixes?_of_endsOperand _ hrest]

theorem reads_of_operand (hcompound : e.isCompound = false)
    (hopening : ∀ rest, Opening (operandChars e ++ rest) rest)
    (hoperand : ∀ {rest}, endsOperand rest = true →
      reader.operand? (operandChars e ++ rest) = some (e.plain, rest))
    (htarget : ∀ {rest}, e.isSigned = false → endsToken rest = true →
      reader.operand? (operandChars e ++ rest) = reader.suffixes? e.plain rest) :
    Reads reader e := by
  refine ⟨fun {rest} hrest => ?_, hoperand, htarget⟩
  rw [← operandChars_of_not_isCompound hcompound]
  exact expr?_of_operand? (hopening rest).function (hoperand (endsOperand_of_endsExpr hrest)) hrest

theorem reads_of_target (hcompound : e.isCompound = false)
    (hopening : ∀ rest, Opening (operandChars e ++ rest) rest)
    (htarget : ∀ {rest}, endsToken rest = true →
      reader.operand? (chars e ++ rest) = reader.suffixes? e.plain rest) :
    Reads reader e := by
  rw [← operandChars_of_not_isCompound hcompound] at htarget
  refine reads_of_operand hcompound hopening (fun {rest} hrest => ?_) fun _ hrest => htarget hrest
  rw [htarget (endsToken_of_endsOperand hrest), suffixes?_of_endsOperand _ hrest]

theorem reads_of_atom (hcompound : e.isCompound = false)
    (hopening : ∀ rest, Opening (operandChars e ++ rest) rest)
    (hsign : ∀ rest, (chars e ++ rest).head?.bind sign? = none)
    (hatom : ∀ {rest}, endsToken rest = true →
      reader.atom? (chars e ++ rest) = some (e.plain, rest)) :
    Reads reader e :=
  reads_of_target hcompound hopening fun {rest} hrest =>
    operand?_of_atom? (hsign rest) (hatom hrest)

/-! ### Items -/

theorem toList_intercalate_cons (first second : String) (more : List String) :
    (String.intercalate ", " (first :: second :: more)).toList =
      first.toList ++ ',' :: ' ' :: (String.intercalate ", " (second :: more)).toList := by
  simp [String.intercalate_cons_cons]

/-- No expression starts with a closing bracket. -/
theorem expr?_close {close : Char} (hclose : close = ')' ∨ close = ']') (s : List Char) :
    reader.expr? (close :: s) = none := by
  have hatom : reader.atom? (close :: s) = none := by
    rw [Reader.atom?]
    obtain rfl | rfl := hclose <;> rfl
  have hsign : sign? close = none := by
    obtain rfl | rfl := hclose <;> rfl
  have hfunction : startsFunction (close :: s) = false := by
    obtain rfl | rfl := hclose <;> rfl
  rw [Reader.expr?, if_neg (by simp [hfunction]), Reader.operand?, List.head?_cons,
    Option.bind_some, hsign]
  dsimp only
  rw [hatom]
  rfl

theorem skip?_of_expr? {close : Char} (hclose : close = ')' ∨ close = ']') {s rest : List Char}
    (h : reader.expr? s = some (e, rest)) : skip? [close] s = none := by
  cases s with
  | nil => rfl
  | cons c s =>
    refine if_neg ?_
    rintro rfl
    rw [expr?_close hclose] at h
    cases h

theorem moreItems?_sources {close : Char} (hclose : close = ')' ∨ close = ']') {items : List Expr}
    (hne : items ≠ []) (hreads : ∀ e ∈ items, Reads reader e) (rest : List Char) :
    reader.moreItems? close
        ((String.intercalate ", " (Expr.sources items)).toList ++ close :: rest) =
      some (Expr.plainAll items, rest) := by
  induction items with
  | nil => exact absurd rfl hne
  | cons e items ih =>
    obtain ⟨he, hitems⟩ := List.forall_mem_cons.mp hreads
    cases items with
    | nil =>
      have hends : endsExpr (close :: rest) = true := by obtain rfl | rfl := hclose <;> rfl
      rw [Expr.sources, Expr.sources, String.intercalate_singleton]
      exact moreItems?_last (he.expr hends)
    | cons e' items =>
      have hcomma : close ≠ ',' := by obtain rfl | rfl := hclose <;> decide
      rw [Expr.sources, Expr.sources, toList_intercalate_cons, List.append_assoc]
      exact moreItems?_cons hcomma (he.expr rfl) (ih (List.cons_ne_nil _ _) hitems)

/-- Expressions in brackets are read back. -/
theorem items?_sources {close : Char} (hclose : close = ')' ∨ close = ']') {items : List Expr}
    (hreads : ∀ e ∈ items, Reads reader e) (rest : List Char) :
    reader.items? close ((String.intercalate ", " (Expr.sources items)).toList ++ close :: rest) =
      some (Expr.plainAll items, rest) := by
  cases items with
  | nil =>
    have hskip : skip? [close] (close :: rest) = some rest := if_pos rfl
    rw [Expr.sources, String.intercalate_nil, Reader.items?]
    exact hskip ▸ rfl
  | cons e items =>
    have hmore := moreItems?_sources hclose (List.cons_ne_nil e items) hreads rest
    generalize (String.intercalate ", " (Expr.sources (e :: items))).toList ++ close :: rest = s
      at hmore ⊢
    have hskip : skip? [close] s = none := by
      rw [Reader.moreItems?] at hmore
      obtain ⟨⟨first, after⟩, hfirst, -⟩ := Option.bind_eq_some_iff.mp hmore
      exact skip?_of_expr? hclose hfirst
    rw [Reader.items?, hskip]
    exact hmore

end Reads

/-! ### Members -/

section Parts

variable {reader : Reader}

/-- A member is read back from its text. -/
def ReadsMember (reader : Reader) (member : Member) : Prop :=
  ∀ {rest : List Char}, endsExpr rest = true →
    reader.member? (member.toSource.toList ++ rest) = some (member.plain, rest)

theorem readsMember_named {key : String} {value : Expr} (h : Reads reader value) :
    ReadsMember reader (.named key value) := by
  intro rest hrest
  rw [Member.toSource, String.toList_append, String.toList_append, List.append_assoc,
    List.append_assoc]
  split
  · next hkey => exact member?_named (isName_of_isIdentifier hkey) (h.expr hrest)
  · have htext : (Text.quoted key).toList ++ (": ".toList ++ (chars value ++ rest)) =
        '"' :: (key.toList.flatMap Text.escaped ++ '"' :: ':' :: ' ' :: (chars value ++ rest)) := by
      simp [Text.quoted]
    exact htext ▸ member?_quoted key (h.expr hrest)

theorem readsMember_computed {key value : Expr} (hkey : Reads reader key)
    (hvalue : Reads reader value) : ReadsMember reader (.computed key value) := by
  intro rest hrest
  have htext : (Member.computed key value).toSource.toList ++ rest =
      '[' :: (chars key ++ ']' :: ':' :: ' ' :: (chars value ++ rest)) := by
    simp [Member.toSource, chars]
  rw [htext]
  exact member?_computed (hkey.expr rfl) (hvalue.expr hrest)

theorem readsMember_spread {source : Expr} (h : Reads reader source) :
    ReadsMember reader (.spread source) := by
  intro rest hrest
  have htext : (Member.spread source).toSource.toList ++ rest =
      '.' :: '.' :: '.' :: (chars source ++ rest) := by
    simp [Member.toSource, chars]
  rw [htext]
  exact member?_spread (h.expr hrest)

theorem readsMember_shorthand {name : String} (hname : isName name = true) :
    ReadsMember reader (.shorthand name) := by
  intro rest hrest
  exact member?_shorthand hname (endsOperand_of_endsExpr hrest)

theorem members?_memberSources {members : List Member} (hne : members ≠ [])
    (hreads : ∀ member ∈ members, ReadsMember reader member) (rest : List Char) :
    reader.members?
        ((String.intercalate ", " (Expr.memberSources members)).toList ++ ' ' :: '\x7d' :: rest) =
      some (Expr.plainMembers members, rest) := by
  rw [Member.memberSources_eq_map, Member.plainMembers_eq_map]
  induction members with
  | nil => exact absurd rfl hne
  | cons member members ih =>
    obtain ⟨hmember, hmembers⟩ := List.forall_mem_cons.mp hreads
    cases members with
    | nil =>
      rw [List.map_singleton, List.map_singleton, String.intercalate_singleton]
      exact members?_last (hmember rfl)
    | cons member' members =>
      rw [List.map_cons, List.map_cons, toList_intercalate_cons, List.append_assoc]
      exact members?_cons (hmember rfl) (ih (List.cons_ne_nil _ _) hmembers)

/-! ### Templates -/

theorem template?_templateSource {texts : List String} {holes : List Expr}
    (hlength : texts.length = holes.length + 1)
    (hhole : ∀ text ∈ texts, hasNoHole text.toList = true)
    (hlast : ∀ text ∈ texts.getLast?, text.toList.getLast? ≠ some '\\')
    (hreads : ∀ e ∈ holes, Reads reader e) (rest : List Char) :
    reader.template? ((Expr.templateSource texts (Expr.sources holes)).toList ++ '\x60' :: rest) =
      some (texts, Expr.plainAll holes, rest) := by
  induction holes generalizing texts with
  | nil =>
    obtain ⟨text, rfl⟩ := List.length_eq_one_iff.mp hlength
    have htext : (Expr.templateSource [text] (Expr.sources [])).toList =
        fixedChars text.toList := by
      simp [Expr.templateSource, Expr.sources, Expr.templateText, fixedChars]
    have hfixed := fixedText?_fixedChars (hhole text List.mem_cons_self) (fixedText?_close rest)
      (by simp) fun hslash => absurd hslash (hlast text rfl)
    rw [htext, template?_last hfixed, String.ofList_toList]
    rfl
  | cons hole holes ih =>
    cases texts with
    | nil => cases hlength
    | cons text texts =>
      obtain ⟨hhere, hmore⟩ := List.forall_mem_cons.mp hreads
      obtain ⟨htext, htexts⟩ := List.forall_mem_cons.mp hhole
      have hsource : (Expr.templateSource (text :: texts) (Expr.sources (hole :: holes))).toList ++
            '\x60' :: rest =
          fixedChars text.toList ++ '$' :: '\x7b' :: (chars hole ++ '\x7d' ::
            ((Expr.templateSource texts (Expr.sources holes)).toList ++ '\x60' :: rest)) := by
        simp [Expr.templateSource, Expr.sources, Expr.templateText, fixedChars, chars]
      have hfixed : ∀ s, fixedText? (fixedChars text.toList ++ '$' :: '\x7b' :: s) =
          some (text.toList, true, s) := fun s =>
        fixedText?_fixedChars htext (fixedText?_open s) (by simp) (by simp)
      have hlast' : ∀ text ∈ texts.getLast?, text.toList.getLast? ≠ some '\\' := by
        intro last hmem
        refine hlast last ?_
        rw [List.getLast?_cons, hmem]
        rfl
      have hlength' : texts.length = holes.length + 1 := Nat.succ.inj hlength
      rw [hsource, template?_cons (hfixed _) (hhere.expr rfl) (ih hlength' htexts hlast' hmore),
        String.ofList_toList]
      rfl

/-! ### Parameters -/

theorem moreParams?_append {name more : List Char} (hmore : more.all isNameChar = true)
    (rest : List Char) : moreParams? name (more ++ rest) = moreParams? (name ++ more) rest := by
  induction more generalizing name with
  | nil => rw [List.nil_append, List.append_nil]
  | cons c more ih =>
    obtain ⟨hc, hmore⟩ := Bool.and_eq_true_iff.mp hmore
    rw [List.cons_append, moreParams?, if_neg (ne_of_isNameChar hc rfl),
      if_neg (ne_of_isNameChar hc rfl), if_neg (ne_of_isNameChar hc rfl), ih hmore,
      List.append_assoc, List.singleton_append]

theorem moreParams?_intercalate {params : List String} (hne : params ≠ [])
    (hnames : ∀ param ∈ params, isName param = true) (rest : List Char) :
    moreParams? [] ((String.intercalate ", " params).toList ++
        ')' :: ' ' :: '=' :: '>' :: ' ' :: rest) =
      some (params, rest) := by
  induction params with
  | nil => exact absurd rfl hne
  | cons param params ih =>
    obtain ⟨hparam, hparams⟩ := List.forall_mem_cons.mp hnames
    have hchars := (isName_iff.mp hparam).1
    cases params with
    | nil =>
      have hskip : skip? [' ', '=', '>', ' '] (' ' :: '=' :: '>' :: ' ' :: rest) = some rest := rfl
      rw [String.intercalate_singleton, moreParams?_append hchars, List.nil_append, moreParams?,
        if_pos rfl, hskip, Option.map_some, String.ofList_toList]
    | cons param' params =>
      rw [toList_intercalate_cons, List.append_assoc, moreParams?_append hchars, List.nil_append,
        List.cons_append, moreParams?, if_neg (by decide), if_pos rfl, List.cons_append,
        moreParams?, if_neg (by decide), if_neg (by decide), if_pos rfl,
        ih (List.cons_ne_nil _ _) hparams]
      simp only [Option.bind_eq_bind, Option.bind_some, String.ofList_toList]

theorem params?_intercalate {params : List String}
    (hnames : ∀ param ∈ params, isName param = true) (rest : List Char) :
    params? ((String.intercalate ", " params).toList ++ ')' :: ' ' :: '=' :: '>' :: ' ' :: rest) =
        some (params, rest) ∧
      startsFunction ('(' :: ((String.intercalate ", " params).toList ++
        ')' :: ' ' :: '=' :: '>' :: ' ' :: rest)) = true := by
  cases params with
  | nil =>
    rw [String.intercalate_nil]
    exact ⟨rfl, rfl⟩
  | cons param params =>
    obtain ⟨hparam, -⟩ := List.forall_mem_cons.mp hnames
    have hmore := moreParams?_intercalate (List.cons_ne_nil param params) hnames rest
    -- Behind the first parameter there is another one or the parenthesis.
    obtain ⟨c, after, htext, hc⟩ : ∃ c after, (String.intercalate ", " (param :: params)).toList ++
          ')' :: ' ' :: '=' :: '>' :: ' ' :: rest = param.toList ++ c :: after ∧
        (c = ',' ∨ c = ')') := by
      cases params with
      | nil =>
        rw [String.intercalate_singleton]
        exact ⟨')', _, rfl, .inr rfl⟩
      | cons param' params =>
        rw [toList_intercalate_cons, List.append_assoc]
        exact ⟨',', _, rfl, .inl rfl⟩
    rw [htext] at hmore ⊢
    have hname : isNameChar c = false := by obtain rfl | rfl := hc <;> decide
    constructor
    · obtain ⟨d, s, hstart, hd, -⟩ := exists_cons_of_isName hparam (c :: after)
      have hskip : skip? [')', ' ', '=', '>', ' '] (d :: s) = none :=
        if_neg (ne_of_isNameChar hd rfl).symm
      rw [params?, hstart, hskip]
      exact hstart ▸ hmore
    · have hall := List.all_eq_true.mp (isName_iff.mp hparam).1
      simp [startsFunction, startsParams, List.dropWhile_append_of_pos hall, hname, hc]

end Parts

/-! ### Every expression -/

section Every

variable {reader : Reader}

theorem ofWord_of_not_literal {name : String}
    (h : Expr.isNamed.literalWords.contains name = false) :
    ofWord name = .ident Span.none name := by
  have hne : name ≠ "true" ∧ name ≠ "false" ∧ name ≠ "null" := by
    simpa [Expr.isNamed.literalWords] using h
  rw [ofWord, if_neg hne.1, if_neg hne.2.1, if_neg hne.2.2]

/-- A function body is read back, with the parentheses around an object. -/
theorem expr?_functionBody {body : Expr} (h : Reads reader body) {rest : List Char}
    (hrest : endsExpr rest = true) :
    reader.expr? ((Expr.functionBody body body.toSource).toList ++ rest) =
      some (body.plain, rest) := by
  unfold Expr.functionBody
  split
  · next span members =>
    -- A brace behind the parenthesis is no parameter, so this is not taken for a function.
    obtain ⟨s, hs⟩ := exists_chars_object span members
    have hparens : ("(" ++ (Expr.object span members).toSource ++ ")").toList ++ rest =
        '(' :: (chars (.object span members) ++ ')' :: rest) := by
      simp [chars]
    have hfunction :
        startsFunction ('(' :: (chars (.object span members) ++ ')' :: rest)) = false := by
      rw [hs]
      rfl
    rw [hparens]
    refine expr?_of_operand? hfunction ?_ hrest
    rw [operand?_of_atom? rfl (atom?_parens (h.expr rfl)),
      suffixes?_of_endsOperand _ (endsOperand_of_endsExpr hrest)]
  · exact h.expr hrest

/-- A printed number is read as it is. -/
theorem operand?_text {x : Float} (hx : Number.isUnsigned x = true) {rest : List Char}
    (hrest : endsToken rest = true) :
    reader.operand? ((Number.text x).toList ++ rest) =
      reader.suffixes? (.num Span.none x) rest := by
  obtain ⟨d, hwritten⟩ := Number.written_text hx
  have hsign : ((Number.text x).toList ++ rest).head?.bind sign? = none := by
    obtain ⟨c, after, hstart, hdigit⟩ := exists_cons_of_written hwritten rest
    rw [hstart]
    exact sign?_of_isNameChar (isNameChar_of_isDigit hdigit)
  rw [operand?_of_atom? hsign (atom?_num hwritten hrest), reader.literal_text x hx]

theorem reads_num {span : Span} {value : Float}
    (hopening : ∀ rest, Opening (operandChars (.num span value) ++ rest) rest)
    (hclear : Number.isUnsigned value = true ∨ Number.isNegative value = true) :
    Reads reader (.num span value) := by
  have htext : chars (.num span value) = (Number.text value).toList := by
    rw [chars, Expr.toSource]
  obtain hunsigned | hnegative := hclear
  · refine reads_of_target rfl hopening fun {rest} hrest => ?_
    rw [htext, operand?_text hunsigned hrest, Expr.plain,
      if_neg (Number.not_isNegative_of_isUnsigned hunsigned)]
  · obtain ⟨hunsigned, hsigned, -⟩ := Number.text_of_isNegative hnegative
    refine reads_of_operand rfl hopening (fun {rest} hrest => ?_) fun h => ?_
    · have habs := @operand?_text reader _ hunsigned _ (endsToken_of_endsOperand hrest)
      rw [suffixes?_of_endsOperand _ hrest] at habs
      rw [operandChars_of_not_isCompound rfl, htext, hsigned, String.toList_append,
        List.append_assoc, Expr.plain, if_pos hnegative]
      exact operand?_unary .neg habs
    · exact absurd (h.symm.trans hnegative) Bool.false_ne_true

mutual

/-- An expression with clear names and parts is read back from its text. -/
theorem reads : ∀ {e : Expr}, e.everywhere Expr.isNamed = true →
    e.everywhere Expr.isClear = true → Reads reader e
  | .str span value, hnamed, hclear => by
    refine reads_of_atom rfl (opening_operandChars hnamed hclear) (fun rest => ?_)
      fun {rest} _ => ?_
    · rw [chars_str]
      rfl
    · rw [chars_str, List.cons_append, List.append_assoc]
      exact atom?_str value
  | .num span value, hnamed, hclear => by
    have hopening := opening_operandChars hnamed hclear
    simp only [Expr.everywhere, Expr.isClear, Bool.or_eq_true] at hclear
    exact reads_num hopening hclear
  | .bool span value, hnamed, hclear => by
    refine reads_of_atom rfl (opening_operandChars hnamed hclear) (fun rest => ?_)
      fun {rest} hrest => ?_
    · rw [chars_bool]
      cases value <;> rfl
    · rw [chars_bool]
      cases value <;> exact atom?_word (by decide) hrest
  | .null span, hnamed, hclear => by
    refine reads_of_atom rfl (opening_operandChars hnamed hclear) (fun rest => ?_)
      fun {rest} hrest => ?_
    · rw [chars_null]
      rfl
    · rw [chars_null]
      exact @atom?_word _ _ "null" (by decide) hrest
  | .ident span name, hnamed, hclear => by
    have hopening := opening_operandChars hnamed hclear
    simp only [Expr.everywhere, Expr.isNamed, Bool.and_eq_true, Bool.not_eq_true'] at hnamed
    have htext : chars (.ident span name) = name.toList := by
      rw [chars, Expr.toSource]
    refine reads_of_atom rfl hopening (fun rest => ?_) fun {rest} hrest => ?_
    · rw [htext]
      obtain ⟨c, after, hstart, hc, -⟩ := exists_cons_of_isName hnamed.1 rest
      rw [hstart]
      exact sign?_of_isNameChar hc
    · rw [htext, atom?_word hnamed.1 hrest, ofWord_of_not_literal hnamed.2]
      rfl
  | .field span target name, hnamed, hclear => by
    have hopening := opening_operandChars hnamed hclear
    simp only [Expr.everywhere, Expr.isNamed, Expr.isClear, Bool.and_eq_true, Bool.not_eq_true']
      at hnamed hclear
    refine reads_of_target rfl hopening fun {rest} hrest => ?_
    rw [chars_field, List.append_assoc, List.cons_append,
      (reads hnamed.2 hclear.2).target hclear.1 (endsToken_field hnamed.1 rest)]
    exact suffixes?_field hnamed.1 hrest
  | .index span target key, hnamed, hclear => by
    have hopening := opening_operandChars hnamed hclear
    simp only [Expr.everywhere, Expr.isNamed, Expr.isClear, Bool.and_eq_true, Bool.not_eq_true']
      at hnamed hclear
    refine reads_of_target rfl hopening fun {rest} hrest => ?_
    rw [chars_index, List.append_assoc,
      (reads hnamed.1.2 hclear.1.2).target hclear.1.1 rfl, List.cons_append,
      List.append_assoc]
    exact suffixes?_index ((reads hnamed.2 hclear.2).expr rfl)
  | .call span callee args, hnamed, hclear => by
    have hopening := opening_operandChars hnamed hclear
    simp only [Expr.everywhere, Expr.isNamed, Expr.isClear, Bool.and_eq_true, Bool.not_eq_true']
      at hnamed hclear
    refine reads_of_target rfl hopening fun {rest} hrest => ?_
    rw [chars_call, List.append_assoc, (reads hnamed.1.2 hclear.1.2).target hclear.1.1 rfl,
      List.cons_append, List.append_assoc]
    exact suffixes?_call (items?_sources (.inl rfl) (reads_all hnamed.2 hclear.2) rest)
  | .unary span op arg, hnamed, hclear => by
    have hopening := opening_operandChars hnamed hclear
    simp only [Expr.everywhere, Bool.and_eq_true] at hnamed hclear
    refine reads_of_operand rfl hopening (fun {rest} hrest => ?_) fun h => by cases h
    rw [operandChars_of_not_isCompound rfl, chars_unary, List.append_assoc]
    exact operand?_unary op ((reads hnamed.2 hclear.2).operand hrest)
  | .template span texts holes, hnamed, hclear => by
    have hopening := opening_operandChars hnamed hclear
    simp only [Expr.everywhere, Expr.isNamed, Expr.isClear, Bool.and_eq_true, beq_iff_eq,
      List.all_eq_true, Option.all_eq_true, bne_iff_ne] at hnamed hclear
    refine reads_of_atom rfl hopening (fun rest => ?_) fun {rest} hrest => ?_
    · rw [chars_template]
      rfl
    · rw [chars_template, List.cons_append, List.append_assoc]
      exact atom?_template (template?_templateSource hnamed.1 hclear.1.1 hclear.1.2
        (reads_all hnamed.2 hclear.2) rest)
  | .object span members, hnamed, hclear => by
    have hopening := opening_operandChars hnamed hclear
    simp only [Expr.everywhere, Expr.isNamed, Bool.and_eq_true, List.all_eq_true]
      at hnamed hclear
    cases members with
    | nil =>
      refine reads_of_atom rfl hopening (fun rest => ?_) fun {rest} _ => ?_ <;>
        rw [chars_object_nil]
      · rfl
      · exact atom?_object_nil
    | cons member members =>
      have hmembers := reads_members (fun name hname => hnamed.1 _ hname) hnamed.2 hclear.2
      refine reads_of_atom rfl hopening (fun rest => ?_) fun {rest} _ => ?_ <;>
        rw [chars_object span (List.cons_ne_nil _ _)]
      · rfl
      · rw [List.cons_append, List.cons_append, List.append_assoc]
        exact atom?_object (members?_memberSources (List.cons_ne_nil _ _) hmembers rest)
  | .array span items, hnamed, hclear => by
    have hopening := opening_operandChars hnamed hclear
    simp only [Expr.everywhere, Bool.and_eq_true] at hnamed hclear
    refine reads_of_atom rfl hopening (fun rest => ?_) fun {rest} hrest => ?_
    · rw [chars_array]
      rfl
    · rw [chars_array, List.cons_append, List.append_assoc]
      exact atom?_array (items?_sources (.inr rfl) (reads_all hnamed.2 hclear.2) rest)
  | .binary span op left right, hnamed, hclear => by
    simp only [Expr.everywhere, Bool.and_eq_true] at hnamed hclear
    refine reads_of_compound rfl fun {rest} hrest => ?_
    rw [chars_binary, List.append_assoc, List.cons_append, List.append_assoc]
    exact expr?_connective (opening_operandChars hnamed.1.2 hclear.1.2 _).function (.binary op)
      ((reads hnamed.1.2 hclear.1.2).operand rfl)
      ((reads hnamed.2 hclear.2).operand (endsOperand_of_endsExpr hrest))
  | .logical span op left right, hnamed, hclear => by
    simp only [Expr.everywhere, Bool.and_eq_true] at hnamed hclear
    refine reads_of_compound rfl fun {rest} hrest => ?_
    rw [chars_logical, List.append_assoc, List.cons_append, List.append_assoc]
    exact expr?_connective (opening_operandChars hnamed.1.2 hclear.1.2 _).function (.logical op)
      ((reads hnamed.1.2 hclear.1.2).operand rfl)
      ((reads hnamed.2 hclear.2).operand (endsOperand_of_endsExpr hrest))
  | .conditional span test yes no, hnamed, hclear => by
    simp only [Expr.everywhere, Bool.and_eq_true] at hnamed hclear
    refine reads_of_compound rfl fun {rest} hrest => ?_
    rw [chars_conditional, List.append_assoc, List.cons_append, List.cons_append, List.cons_append,
      List.append_assoc]
    exact expr?_conditional (opening_operandChars hnamed.1.1.2 hclear.1.1.2 _).function
      ((reads hnamed.1.1.2 hclear.1.1.2).operand rfl)
      ((reads hnamed.1.2 hclear.1.2).operand rfl)
      ((reads hnamed.2 hclear.2).operand (endsOperand_of_endsExpr hrest))
  | .function span params body, hnamed, hclear => by
    simp only [Expr.everywhere, Expr.isNamed, Bool.and_eq_true] at hnamed hclear
    refine reads_of_compound rfl fun {rest} hrest => ?_
    rw [chars_function, List.cons_append, List.append_assoc]
    obtain ⟨hparams, hfunction⟩ := params?_intercalate (List.all_eq_true.mp hnamed.1)
      ((Expr.functionBody body body.toSource).toList ++ rest)
    exact expr?_function hfunction hparams (expr?_functionBody (reads hnamed.2 hclear.2) hrest)

theorem reads_all : ∀ {items : List Expr}, Expr.everywhereAll Expr.isNamed items = true →
    Expr.everywhereAll Expr.isClear items = true → ∀ e ∈ items, Reads reader e
  | [], _, _ => fun _ he => absurd he List.not_mem_nil
  | e :: items, hnamed, hclear => by
    simp only [Expr.everywhereAll, Bool.and_eq_true] at hnamed hclear
    exact List.forall_mem_cons.mpr ⟨reads hnamed.1 hclear.1, reads_all hnamed.2 hclear.2⟩

theorem reads_members : ∀ {members : List Member},
    (∀ name, Member.shorthand name ∈ members → isName name = true) →
    Expr.everywhereMembers Expr.isNamed members = true →
    Expr.everywhereMembers Expr.isClear members = true →
    ∀ member ∈ members, ReadsMember reader member
  | [], _, _, _ => fun _ hmember => absurd hmember List.not_mem_nil
  | .named key value :: members, hnames, hnamed, hclear => by
    simp only [Expr.everywhereMembers, Bool.and_eq_true] at hnamed hclear
    exact List.forall_mem_cons.mpr ⟨readsMember_named (reads hnamed.1 hclear.1),
      reads_members (fun name hname => hnames name (.tail _ hname)) hnamed.2 hclear.2⟩
  | .computed key value :: members, hnames, hnamed, hclear => by
    simp only [Expr.everywhereMembers, Bool.and_eq_true] at hnamed hclear
    exact List.forall_mem_cons.mpr
      ⟨readsMember_computed (reads hnamed.1.1 hclear.1.1) (reads hnamed.1.2 hclear.1.2),
        reads_members (fun name hname => hnames name (.tail _ hname)) hnamed.2 hclear.2⟩
  | .shorthand name :: members, hnames, hnamed, hclear => by
    simp only [Expr.everywhereMembers] at hnamed hclear
    exact List.forall_mem_cons.mpr ⟨readsMember_shorthand (hnames name List.mem_cons_self),
      reads_members (fun name hname => hnames name (.tail _ hname)) hnamed hclear⟩
  | .spread source :: members, hnames, hnamed, hclear => by
    simp only [Expr.everywhereMembers, Bool.and_eq_true] at hnamed hclear
    exact List.forall_mem_cons.mpr ⟨readsMember_spread (reads hnamed.1 hclear.1),
      reads_members (fun name hname => hnames name (.tail _ hname)) hnamed.2 hclear.2⟩

end

end Every

/-- There is a reader: no two numbers are printed as one numeral. -/
theorem nonempty_reader : Nonempty Reader := by
  refine ⟨Function.invFunOn (fun x => (Number.text x).toList) {x | Number.isUnsigned x = true},
    fun x hx => ?_⟩
  have hinj : Set.InjOn (fun x => (Number.text x).toList) {x | Number.isUnsigned x = true} :=
    fun x hx y hy h => Number.text_injOn hx hy (String.toList_injective h)
  exact hinj.leftInvOn_invFunOn hx

end Source

/-! ## The same text -/

namespace Expr

/-- Expressions that are clear in all parts have one plain form for one text. -/
theorem plain_eq_of_toSource_eq {e e' : Expr} (hnamed : e.everywhere isNamed = true)
    (hclear : e.everywhere isClear = true) (hnamed' : e'.everywhere isNamed = true)
    (hclear' : e'.everywhere isClear = true) (h : e.toSource = e'.toSource) :
    e.plain = e'.plain := by
  obtain ⟨reader⟩ := Source.nonempty_reader
  have hread := @(@Source.reads reader e hnamed hclear).expr [] rfl
  have hread' := @(@Source.reads reader e' hnamed' hclear').expr [] rfl
  have hchars : Source.chars e = Source.chars e' := congrArg String.toList h
  rw [hchars, hread', Option.some.injEq, Prod.mk.injEq] at hread
  exact hread.1.symm

/-- The text of an expression stands for it: it shows the plain form, and expressions with one text
have one constant, or meet one obstacle. -/
theorem toSource_faithful {e e' : Expr} (hnamed : e.everywhere isNamed = true)
    (hclear : e.everywhere isClear = true) (hnamed' : e'.everywhere isNamed = true)
    (hclear' : e'.everywhere isClear = true) :
    (e.toSource = e'.toSource ↔ e.plain = e'.plain) ∧
      (e.toSource = e'.toSource → ∀ env : Env, env.helpers.Blind → ∀ unit : SourceUnit,
        (env.evaluate unit e).map Value.plain = (env.evaluate unit e').map Value.plain ∧
          ∀ value : Value, value.isData = true →
            (env.evaluate unit e = .ok value ↔ env.evaluate unit e' = .ok value)) := by
  have hplain := plain_eq_of_toSource_eq hnamed hclear hnamed' hclear'
  refine ⟨⟨hplain, fun h => ?_⟩, fun h env hhelpers unit => ?_⟩
  · rw [← toSource_plain e, h, toSource_plain e']
  · have hsame :
        (env.evaluate unit e).map Value.plain = (env.evaluate unit e').map Value.plain := by
      rw [env.evaluate_plain hhelpers, hplain h, ← env.evaluate_plain hhelpers]
    exact ⟨hsame, fun value hdata =>
      ⟨ok_of_map_plain_eq hsame hdata, ok_of_map_plain_eq hsame.symm hdata⟩⟩

/-- A call that is written in two ways: with a negative literal or with a sign, and at different
places. -/
theorem toSource_faithful_negative :
    let e : Expr := .call ⟨0, 40⟩ (.field ⟨0, 8⟩ (.ident ⟨0, 4⟩ "Math") "max")
      [.num ⟨9, 13⟩ (-1.5), .index ⟨15, 39⟩ (.object ⟨15, 27⟩ [.named "a-b" (.num ⟨24, 25⟩ 7)])
        (.template ⟨28, 38⟩ ["a", "b"] [.str ⟨32, 35⟩ "-"])]
    let e' : Expr := .call Span.none (.field Span.none (.ident Span.none "Math") "max")
      [.unary Span.none .neg (.num Span.none 1.5),
        .index Span.none (.object Span.none [.named "a-b" (.num Span.none 7)])
          (.template Span.none ["a", "b"] [.str Span.none "-"])]
    let env : Env := ⟨Resolver.none, Helpers.standard⟩
    (e.everywhere isNamed && e.everywhere isClear && e'.everywhere isNamed &&
        e'.everywhere isClear) = true ∧
      e.toSource = e'.toSource ∧ env.helpers.Blind ∧ e.plain = e'.plain ∧
      env.evaluate { path := "/a.js" } e = .ok (.num 7) ∧
      env.evaluate { path := "/a.js" } e' = .ok (.num 7) := by
  intro e e' env
  have htext : e.toSource = e'.toSource := by decide +kernel
  have hvalue : env.evaluate { path := "/a.js" } e = .ok (.num 7) := rfl
  obtain ⟨hplain, hsame⟩ := @toSource_faithful e e' (by decide +kernel) (by decide +kernel)
    (by decide +kernel) (by decide +kernel)
  refine ⟨by decide +kernel, htext, Helpers.blind_standard, hplain.mp htext, hvalue, ?_⟩
  exact ((hsame htext env Helpers.blind_standard _).2 (.num 7) rfl).mp hvalue

/-- Two expressions have one text, and evaluation tells them apart. -/
def Confused (env : Env) (bindings : Ordered Expr) (e e' : Expr) : Prop :=
  e.everywhere isNamed = true ∧ e'.everywhere isNamed = true ∧ e.toSource = e'.toSource ∧
    (env.evaluate { path := "", bindings } e).map Value.plain ≠
      (env.evaluate { path := "", bindings } e').map Value.plain

theorem confused_of_text {env : Env} {bindings : Ordered Expr} {e e' : Expr}
    (hnamed : (e.everywhere isNamed && e'.everywhere isNamed) = true)
    (h : e.toSource = e'.toSource)
    (htext : (env.evaluate { path := "", bindings } e).toOption.map Value.text? ≠
      (env.evaluate { path := "", bindings } e').toOption.map Value.text?) :
    Confused env bindings e e' := by
  have hplain : ∀ outcome : Evaluated,
      (outcome.map Value.plain).toOption.map Value.text? = outcome.toOption.map Value.text? := by
    intro outcome
    cases outcome with
    | error obstacle => rfl
    | ok value => exact congrArg some (Value.text?_plain value)
  obtain ⟨hnamed, hnamed'⟩ := Bool.and_eq_true_iff.mp hnamed
  refine ⟨hnamed, hnamed', h, fun heq => htext ?_⟩
  rw [← hplain, heq, hplain]

/-- A helper that looks into functions: whether one of them puts a sign in front of its result. -/
def negates (args : List Value) : Option Value :=
  some (.bool (args.any fun
    | .function _ (.unary ..) _ _ => true
    | _ => false))

/-- Each condition on clear texts is needed, and so is that helpers do not look into functions. -/
theorem texts_confused :
    let env : Env := ⟨Resolver.none, Helpers.standard⟩
    let negative : Expr := .call Span.none (.ident Span.none "negates")
      [.function Span.none [] (.num Span.none (-1))]
    let opposite : Expr := .call Span.none (.ident Span.none "negates")
      [.function Span.none [] (.unary Span.none .neg (.num Span.none 1))]
    Confused env [("a", .object Span.none [.named "b" (.num Span.none 1)])]
        (.field Span.none (.unary Span.none .not (.ident Span.none "a")) "b")
        (.unary Span.none .not (.field Span.none (.ident Span.none "a") "b")) ∧
      Confused env [("a", .str Span.none "x")] (.template Span.none ["$\x7ba\x7d"] [])
        (.template Span.none ["", ""] [.ident Span.none "a"]) ∧
      Confused env []
        (.array Span.none [.template Span.none ["\\"] [],
          .template Span.none [", \"", ""] [.str Span.none ", \x60"]])
        (.array Span.none [.template Span.none ["\x60, "] [], .str Span.none "$\x7b",
          .template Span.none ["\"\x7d"] []]) ∧
      Confused env [] (.binary Span.none .div (.num Span.none 1) (.num Span.none (-0)))
        (.binary Span.none .div (.num Span.none 1) (.num Span.none 0)) ∧
      Confused env [("Infinity", .num Span.none 1)] (.num Span.none (1 / 0))
        (.ident Span.none "Infinity") ∧
      Confused ⟨Resolver.none, fun _ => some negates⟩ [] negative opposite ∧
      (negative.everywhere isClear && opposite.everywhere isClear) = true := by
  intro env negative opposite
  refine ⟨?_, ?_, ?_, ?_, ?_, ?_, by decide +kernel⟩ <;>
    exact confused_of_text (by decide +kernel) (by decide +kernel) (by decide +kernel)

end Expr

end AtomicStyle
