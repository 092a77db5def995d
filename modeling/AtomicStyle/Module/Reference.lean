import AtomicStyle.Expr.Printer
import AtomicStyle.Module.Unit

/-!
# References to run-time expressions

An expression that is left for run time, as the text that stands for it in emitted code.
-/

namespace AtomicStyle

/-- The place and text of an expression. -/
structure SourceRef where
  span : Span
  text : String
deriving DecidableEq, Repr

/-- The source text of an expression where its unit has one, its printed form otherwise. -/
def SourceRef.of (unit : SourceUnit) (e : Expr) : SourceRef :=
  ⟨e.span, (e.span.slice? unit.source).getD e.toSource⟩

/-- An interpolated run-time expression, numbered within its site. -/
structure DynamicRef where
  source : SourceRef
  slot : Nat
deriving DecidableEq, Repr

end AtomicStyle
