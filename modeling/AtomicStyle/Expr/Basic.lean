import AtomicStyle.Span

/-!
# Script expressions

The expressions in which styles are written: literals, names, member access, calls of
single-expression functions, operators, templates, and object and array literals.  Each carries
the span of its source text.
-/

namespace AtomicStyle

inductive BinaryOp where
  | add | sub | mul | div | rem | strictEq | strictNe
deriving DecidableEq, Repr

inductive UnaryOp where
  | neg | plus | not
deriving DecidableEq, Repr

inductive LogicalOp where
  | and | or | nullish
deriving DecidableEq, Repr

namespace BinaryOp

def symbol : BinaryOp → String
  | add => "+"
  | sub => "-"
  | mul => "*"
  | div => "/"
  | rem => "%"
  | strictEq => "==="
  | strictNe => "!=="

end BinaryOp

namespace UnaryOp

def symbol : UnaryOp → String
  | neg => "-"
  | plus => "+"
  | not => "!"

end UnaryOp

namespace LogicalOp

def symbol : LogicalOp → String
  | and => "&&"
  | or => "||"
  | nullish => "??"

end LogicalOp

mutual

/-- An expression.  The first field of every constructor is the span of its source text. -/
inductive Expr where
  | str (span : Span) (value : String)
  | num (span : Span) (value : Float)
  | bool (span : Span) (value : Bool)
  | null (span : Span)
  | ident (span : Span) (name : String)
  /-- Access to a member by name. -/
  | field (span : Span) (object : Expr) (name : String)
  /-- Access to a member by a computed key. -/
  | index (span : Span) (object key : Expr)
  | call (span : Span) (callee : Expr) (args : List Expr)
  | binary (span : Span) (op : BinaryOp) (left right : Expr)
  | unary (span : Span) (op : UnaryOp) (arg : Expr)
  /-- Fixed texts with an expression after each of them but the last. -/
  | template (span : Span) (texts : List String) (holes : List Expr)
  | object (span : Span) (members : List Member)
  | array (span : Span) (items : List Expr)
  /-- A function whose body is one expression. -/
  | function (span : Span) (params : List String) (body : Expr)
  | conditional (span : Span) (test yes no : Expr)
  | logical (span : Span) (op : LogicalOp) (left right : Expr)

/-- A member of an object literal. -/
inductive Member where
  | named (key : String) (value : Expr)
  | computed (key value : Expr)
  | shorthand (name : String)
  | spread (source : Expr)

end

instance : Inhabited Expr := ⟨.null Span.none⟩

instance : Inhabited Member := ⟨.shorthand ""⟩

namespace Expr

/-- Where the expression stands in its source text. -/
def span : Expr → Span
  | str span _ | num span _ | bool span _ | null span | ident span _ | field span _ _
  | index span _ _ | call span _ _ | binary span _ _ _ | unary span _ _ | template span _ _
  | object span _ | array span _ | function span _ _ | conditional span _ _ _
  | logical span _ _ _ => span

/-- The same expression at another place. -/
def withSpan (span : Span) : Expr → Expr
  | str _ value => str span value
  | num _ value => num span value
  | bool _ value => bool span value
  | null _ => null span
  | ident _ name => ident span name
  | field _ target name => field span target name
  | index _ target key => index span target key
  | call _ callee args => call span callee args
  | binary _ op left right => binary span op left right
  | unary _ op arg => unary span op arg
  | template _ texts holes => template span texts holes
  | object _ members => object span members
  | array _ items => array span items
  | function _ params body => function span params body
  | conditional _ test yes no => conditional span test yes no
  | logical _ op left right => logical span op left right

end Expr

end AtomicStyle
