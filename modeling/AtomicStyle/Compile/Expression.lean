import AtomicStyle.Compile.ClassItems
import AtomicStyle.Text.Alphanumeric
import AtomicStyle.Text.Quoted

/-!
# Emitted expressions

The script expressions that stand for the class names and variables of a site.  Class lists are
composed by `ax`, and the values of variables are formed by `ix`.
-/

namespace AtomicStyle

open AtomicStyle.Text

/-- An expression in parentheses, unless it is a plain name or member. -/
def parenthesized (expression : String) : String :=
  let isPlain (c : Char) : Bool :=
    isAlphanumeric c || c == '_' || c == '$' || c == '.' || c == '!'
  if expression.toList.all isPlain then expression else "(" ++ expression ++ ")"

/-- The class list that a group puts on the element. -/
def RuleGroup.elementClasses (rendering : Rendering) (group : RuleGroup) : String :=
  String.intercalate " " (group.rules.map (·.elementClass rendering.compression))

/-- A call of the function that composes class lists. -/
def composeCall (lists : List String) : String :=
  "ax([" ++ String.intercalate ", " lists ++ "])"

namespace ClassItems

/-- The expression of a branch with the given items: a string where all of them are static. -/
def branchText (rendering : Rendering) (items : ClassItems) (texts : List String) : String :=
  if items.isStatic then
    quoted (String.intercalate " " (items.staticGroups.map (·.elementClasses rendering)))
  else composeCall texts

/-- The expressions of the items in order. -/
def texts (rendering : Rendering) : ClassItems → List String
  | nil => []
  | group g rest => quoted (g.elementClasses rendering) :: rest.texts rendering
  | guarded test body rest =>
    (parenthesized test.text ++ " && " ++ branchText rendering body (body.texts rendering)) ::
      rest.texts rendering
  | branch test yes no rest =>
    (parenthesized test.text ++ " ? " ++ branchText rendering yes (yes.texts rendering) ++ " : " ++
      branchText rendering no (no.texts rendering)) :: rest.texts rendering
  | passthrough source rest => source.text :: rest.texts rendering

end ClassItems

/-- The call that forms the value of a variable. -/
def CssVariable.call (v : CssVariable) : String :=
  let arguments :=
    if v.after.isEmpty && v.before.isEmpty then []
    else if v.before.isEmpty then [quoted v.after]
    else [quoted v.after, quoted v.before]
  "ix(" ++ String.intercalate ", " (v.expression.text :: arguments) ++ ")"

end AtomicStyle
