import AtomicStyle.Css.Shorthand
import AtomicStyle.Distinct
import AtomicStyle.Ordered
import AtomicStyle.Rule.Atomic
import AtomicStyle.Style.Block

/-!
# From blocks to atomic rules

Every declaration of a block becomes a rule of its own, or several where a shorthand is expanded.
The later declaration of a property in a context takes the place of the earlier one.  Parts that are
known only at run time become CSS variables.
-/

namespace AtomicStyle

open AtomicStyle.Text

/-- The class name of a declaration in a context.  The salt keeps apart the class names of programs
that share a document. -/
def className (salt : String) (context : Context) (property value : String) (important : Bool) :
    String :=
  "_" ++ Digest.token (salt ++ context.label ++ context.selector ++ property) ++
    Digest.token (if important then value ++ "true" else value)

/-! ## Run-time parts -/

/-- Whether a character can stand in a unit. -/
def isUnitChar (c : Char) : Bool :=
  c.isAlpha || c == '%'

/-- A text without the minus sign at its end, if that sign belongs to what follows: it opens the
text or stands after a blank or a parenthesis. -/
def dropSign? (out : List Char) : Option (List Char) :=
  match out.reverse with
  | ['-'] => some []
  | '-' :: c :: rest => if isBlank c || c == '(' then some (c :: rest).reverse else none
  | _ => none

/-- What moves from the texts around a run-time part into its variable: the text before and the
text after it, shortened, and the pieces that have moved. -/
structure Absorbed where
  out : List Char
  next : List Char
  before : List Char
  after : List Char

/-- Moves a minus sign before the part, a unit after it, and a pair of quotes around these into the
variable, so that the value of the variable is a whole token. -/
def absorb (out : List Char) (next : Option (List Char)) : Absorbed :=
  let (out, sign) := match dropSign? out with
    | some rest => (rest, ['-'])
    | none => (out, [])
  match next with
  | none => ⟨out, [], sign, []⟩
  | some next =>
    let unit := next.takeWhile isUnitChar
    match out.getLast?, next.dropWhile isUnitChar with
    | some q, c :: rest =>
      if isQuote q && c == q then ⟨out.dropLast, rest, q :: sign, unit ++ [q]⟩
      else ⟨out, c :: rest, sign, unit⟩
    | _, rest => ⟨out, rest, sign, unit⟩

/-- The name of the variable of a run-time part.  The slot gives every expression of a site a
variable of its own. -/
def variableName (context : Context) (property : String) (slot : Nat) : String :=
  "--_" ++ Digest.hash (context.label ++ context.selector ++ property ++ toString slot)

/-- The reference to a variable. -/
def variableRef (name : String) : String :=
  "var(" ++ name ++ ")"

/-- The variable of a run-time part and what moves into it. -/
def runtimeVariable (context : Context) (property : String) (ref : DynamicRef)
    (absorbed : Absorbed) : CssVariable :=
  ⟨variableName context property ref.slot, ref.source, String.ofList absorbed.before,
    String.ofList absorbed.after⟩

/-- The text of a value after the given text, with references in the place of the run-time parts,
and the variables in order. -/
def valueTextFrom (context : Context) (property : String) (out : List Char) :
    List ValuePart → List Char × List CssVariable
  | [] => (out, [])
  | .text text :: rest => valueTextFrom context property (out ++ text.toList) rest
  | .dynamic ref :: .text next :: rest =>
    let absorbed := absorb out (some next.toList)
    let v := runtimeVariable context property ref absorbed
    let (text, vars) := valueTextFrom context property
      (absorbed.out ++ (variableRef v.name).toList ++ absorbed.next) rest
    (text, v :: vars)
  | .dynamic ref :: rest =>
    let absorbed := absorb out none
    let v := runtimeVariable context property ref absorbed
    let (text, vars) :=
      valueTextFrom context property (absorbed.out ++ (variableRef v.name).toList) rest
    (text, v :: vars)

/-- The text of a declared value and its variables. -/
def valueText (context : Context) (d : Declaration) : String × List CssVariable :=
  let (text, vars) := valueTextFrom context d.property [] d.value
  (String.ofList text, vars)

/-! ## Declarations -/

/-- The longhands and values that a declared value stands for, in canonical spelling; an empty value
stands for none. -/
def longhands (property value : String) : List (String × String) :=
  let value := Css.canonical value
  if value.isEmpty then []
  else
    let value := (Css.reorderLine? property value).getD value
    (Css.expand? property value).getD [(property, value)]

/-- What declarations give: rules and variables in source order, with repetitions. -/
structure Declared where
  rules : List AtomicRule := []
  vars : List CssVariable := []

def Declared.append (a b : Declared) : Declared :=
  ⟨a.rules ++ b.rules, a.vars ++ b.vars⟩

instance : Append Declared := ⟨Declared.append⟩

/-- What one declaration gives. -/
def declare (salt : String) (context : Context) (d : Declaration) : Declared :=
  let (text, vars) := valueText context d
  let rules := (longhands d.property text).map fun (property, value) =>
    { context, property, value, important := d.important,
      className := className salt context property value d.important }
  ⟨rules, vars⟩

/-- What a block gives inside at-rules and a selector. -/
def declareAll (salt : String) (atRules : List AtRule) (selector : String) : Block → Declared
  | .nil => {}
  | .declaration d rest =>
    declare salt (Context.of atRules selector) d ++ declareAll salt atRules selector rest
  | .rule selectors body rest =>
    selectors.foldr
      (fun child declared => declareAll salt atRules (Selector.nest selector child) body ++ declared)
      (declareAll salt atRules selector rest)
  | .atRule name params body rest =>
    let wrapper : AtRule := ⟨name, String.intercalate " " (wordsOf params)⟩
    declareAll salt (atRules ++ [wrapper]) selector body ++ declareAll salt atRules selector rest

/-! ## Groups -/

/-- The group of declarations: the last rule of each property in each context, and the variables
that these rules refer to. -/
def Declared.group (declared : Declared) : RuleGroup :=
  let rules := latest (fun rule : AtomicRule => (rule.context, rule.property)) declared.rules
  let vars := Ordered.putAll [] (declared.vars.map fun v => (v.name, v))
  let isUsed (v : CssVariable) : Bool :=
    rules.any fun rule => hasText (variableRef v.name) rule.value
  ⟨rules, (vars.map Prod.snd).filter isUsed⟩

/-- The group of a block. -/
def Block.atomize (salt : String) (block : Block) : RuleGroup :=
  (declareAll salt [] "&" block).group

end AtomicStyle
