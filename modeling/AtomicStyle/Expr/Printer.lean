import AtomicStyle.Expr.Basic
import AtomicStyle.Number.Shortest
import AtomicStyle.Text.Quoted

/-!
# Printed expressions

The script text of an expression.  An operand that is itself an operation is put in parentheses,
so the text needs no precedence to be read.
-/

namespace AtomicStyle

/-- Whether a name can stand as a key without quotes. -/
def isIdentifier (name : String) : Bool :=
  match name.toList with
  | [] => false
  | c :: rest =>
    (c.isAlpha || c == '_' || c == '$') && rest.all fun d => d.isAlphanum || d == '_' || d == '$'

namespace Expr

/-- Whether an operand is put in parentheses. -/
def isCompound : Expr → Bool
  | binary .. | conditional .. | logical .. | function .. => true
  | _ => false

/-- A text in parentheses if it is the text of a compound operand. -/
def operand (e : Expr) (text : String) : String :=
  if e.isCompound then "(" ++ text ++ ")" else text

/-- A function body; a literal object needs parentheses there. -/
def functionBody (body : Expr) (text : String) : String :=
  match body with
  | object .. => "(" ++ text ++ ")"
  | _ => text

/-- The fixed text of a template with its own quote escaped. -/
def templateText (text : String) : String :=
  String.ofList (text.toList.flatMap fun c => if c == '\x60' then ['\\', '\x60'] else [c])

mutual

/-- The script text of an expression. -/
def toSource : Expr → String
  | str _ value => Text.quoted value
  | num _ value => Number.text value
  | bool _ value => if value then "true" else "false"
  | null _ => "null"
  | ident _ name => name
  | field _ target name => operand target target.toSource ++ "." ++ name
  | index _ target key => operand target target.toSource ++ "[" ++ key.toSource ++ "]"
  | call _ callee args =>
    operand callee callee.toSource ++ "(" ++ String.intercalate ", " (sources args) ++ ")"
  | binary _ op left right =>
    operand left left.toSource ++ " " ++ op.symbol ++ " " ++ operand right right.toSource
  | unary _ op arg => op.symbol ++ operand arg arg.toSource
  | template _ texts holes => "\x60" ++ templateSource texts (sources holes) ++ "\x60"
  | object _ members =>
    match memberSources members with
    | [] => "\x7b\x7d"
    | texts => "\x7b " ++ String.intercalate ", " texts ++ " \x7d"
  | array _ items => "[" ++ String.intercalate ", " (sources items) ++ "]"
  | function _ params body =>
    "(" ++ String.intercalate ", " params ++ ") => " ++ functionBody body body.toSource
  | conditional _ test yes no =>
    operand test test.toSource ++ " ? " ++ operand yes yes.toSource ++ " : " ++
      operand no no.toSource
  | logical _ op left right =>
    operand left left.toSource ++ " " ++ op.symbol ++ " " ++ operand right right.toSource

/-- The texts of expressions in order. -/
def sources : List Expr → List String
  | [] => []
  | e :: rest => e.toSource :: sources rest

/-- The texts of the members of an object literal in order. -/
def memberSources : List Member → List String
  | [] => []
  | .named key value :: rest =>
    ((if isIdentifier key then key else Text.quoted key) ++ ": " ++ value.toSource) ::
      memberSources rest
  | .computed key value :: rest =>
    ("[" ++ key.toSource ++ "]: " ++ value.toSource) :: memberSources rest
  | .shorthand name :: rest => name :: memberSources rest
  | .spread source :: rest => ("..." ++ source.toSource) :: memberSources rest

/-- The texts of a template, with the printed expressions between them. -/
def templateSource : List String → List String → String
  | [], _ => ""
  | text :: texts, [] => templateText text ++ templateSource texts []
  | text :: texts, hole :: holes =>
    templateText text ++ "$\x7b" ++ hole ++ "\x7d" ++ templateSource texts holes

end

end Expr

end AtomicStyle
