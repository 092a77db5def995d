import AtomicStyle.Style.Entry

/-!
# Style inputs

What a site applies: a style object, CSS text, a list of inputs, a choice that is made at run time,
or class names that are known at run time only.
-/

namespace AtomicStyle

/-- The styles of a site. -/
inductive StyleInput where
  | object (entries : Entries)
  /-- CSS text in which markers stand for the references. -/
  | css (text : String) (refs : List DynamicRef) (span : Span)
  | list (items : List StyleInput)
  /-- Styles that apply when a test succeeds at run time. -/
  | guarded (test : SourceRef) (body : StyleInput)
  | branch (test : SourceRef) (yes no : StyleInput)
  /-- Class names that are passed on as they are. -/
  | passthrough (source : SourceRef)

namespace StyleInput

instance : Inhabited StyleInput := ⟨.list []⟩

/-- No styles. -/
def empty : StyleInput := .list []

mutual

/-- The styles of a constant. -/
def ofValue (span : Span) : Value → Except CompileError StyleInput
  | .object members => .ok (.object (Entries.ofMembers members))
  | .str text => .ok (.css text [] span)
  | .array items => do
    let inputs ← ofValues span items
    .ok (.list inputs)
  | .undefined | .null | .bool false => .ok empty
  | other => .error (.unsupportedStyle (.notAStyle other.typeName) span)

def ofValues (span : Span) : List Value → Except CompileError (List StyleInput)
  | [] => .ok []
  | value :: rest => do
    let input ← ofValue span value
    let inputs ← ofValues span rest
    .ok (input :: inputs)

end

end StyleInput

end AtomicStyle
