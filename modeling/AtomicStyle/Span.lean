import AtomicStyle.Text.Measure
import AtomicStyle.Text.Search

/-!
# Spans

A range of bytes of a source text.  An expression that was built rather than read has the span
`Span.none`, which covers no text.
-/

namespace AtomicStyle

/-- The bytes from `lo` up to and excluding `hi`. -/
structure Span where
  lo : Nat
  hi : Nat
deriving DecidableEq, Repr

namespace Span

/-- The span of what stands in no source text. -/
protected def none : Span := ⟨0, 0⟩

/-- Whether a span locates nothing. -/
def isNone (span : Span) : Bool :=
  span.lo == 0 && span.hi == 0

/-- The span of the first occurrence of `needle`. -/
def find? (source needle : String) : Option Span :=
  (Text.cut? needle.toList source.toList).map fun parts =>
    let lo := Text.byteLength parts.1
    ⟨lo, lo + Text.byteLength needle.toList⟩

/-- The text before, inside and after a span whose ends lie between characters. -/
def parts? (span : Span) (source : List Char) : Option (List Char × List Char × List Char) := do
  if span.hi < span.lo then failure
  let (before, rest) ← Text.splitAtByte? span.lo source
  let (inside, after) ← Text.splitAtByte? (span.hi - span.lo) rest
  return (before, inside, after)

/-- The text that a span covers.  A span that locates nothing covers none. -/
def slice? (span : Span) (source : String) : Option String :=
  if span.isNone then Option.none
  else (span.parts? source.toList).map fun parts => String.ofList parts.2.1

end Span

end AtomicStyle
