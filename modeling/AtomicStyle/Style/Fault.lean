import AtomicStyle.Css.Property
import AtomicStyle.Value.Obstacle

/-!
# Faults of a style

The errors that end the compilation of a unit and the warnings that do not, each as its cause, with
the wording in one place.
-/

namespace AtomicStyle

/-- What is wrong with a CSS text. -/
inductive CssFault where
  | unclosedBlock
  | unexpected (c : Char)
  | missingSelector
  | misplacedInterpolation
  | unsupportedAtRule (prelude : String)
  | missingColon (text : String)
  | missingProperty
  | emptyValue (property : String)
  | invalidMarker
  | unterminatedComment
  | unterminatedString
  | unclosedParenthesis
deriving DecidableEq, Repr

def CssFault.message : CssFault → String
  | unclosedBlock => "unclosed block"
  | unexpected c => "unexpected `" ++ String.singleton c ++ "`"
  | missingSelector => "expected a selector before `\x7b`"
  | misplacedInterpolation => "interpolations are only allowed in declaration values"
  | unsupportedAtRule prelude => "unsupported at-rule `" ++ prelude ++ "`"
  | missingColon text => "expected `:` in `" ++ text ++ "`"
  | missingProperty => "expected a property name"
  | emptyValue property => "empty value for `" ++ property ++ "`"
  | invalidMarker => "invalid interpolation marker"
  | unterminatedComment => "unterminated comment"
  | unterminatedString => "unterminated string"
  | unclosedParenthesis => "unclosed parenthesis"

/-- What a style cannot be made of. -/
inductive StyleFault where
  /-- A selector or at-rule whose value is not an object. -/
  | needsObject (key : String)
  | scalar (fault : Css.ScalarFault) (key : String)
  | spread (typeName : String)
  | spreadAtRunTime (obstacle : Obstacle)
  | interpolatedValue (typeName : String)
  | interpolatedCss (typeName : String)
  | notAStyle (typeName : String)
deriving DecidableEq, Repr

def StyleFault.message : StyleFault → String
  | needsObject key => "`" ++ key ++ "` needs an object value"
  | scalar fault key => fault.message ++ " (`" ++ key ++ "`)"
  | spread typeName => "cannot spread a " ++ typeName ++ " into styles"
  | spreadAtRunTime obstacle =>
    "cannot spread a runtime value into styles (" ++ obstacle.message ++ ")"
  | interpolatedValue typeName => "cannot interpolate a " ++ typeName ++ " into a value"
  | interpolatedCss typeName => "cannot interpolate a " ++ typeName ++ " into CSS"
  | notAStyle typeName => "a " ++ typeName ++ " is not a valid style"

/-- A failure that leaves a unit uncompiled. -/
inductive CompileError where
  /-- Malformed CSS text; line and column count from one within that text, and the span locates
  the style in the unit. -/
  | malformedCss (fault : CssFault) (span : Span) (line column : Nat)
  | unresolvableImport (specifier localName : String) (span : Span)
  | dynamicSelectorKey (span : Span)
  | unsupportedStyle (fault : StyleFault) (span : Span)
  | invalidClassSalt (salt : String)
deriving DecidableEq, Repr

def CompileError.message : CompileError → String
  | malformedCss fault _ line column =>
    fault.message ++ " at " ++ toString line ++ ":" ++ toString column
  | unresolvableImport specifier localName _ =>
    "`" ++ localName ++ "` from `" ++ specifier ++
      "` could not be resolved; selector keys must be statically known"
  | dynamicSelectorKey _ => "selector keys must be statically known"
  | unsupportedStyle fault _ => fault.message
  | invalidClassSalt salt => "class hash prefix `" ++ salt ++ "` is not a valid CSS identifier"

/-- An import that could not be resolved, so that its value is left for run time. -/
structure DegradedImport where
  specifier : String
  localName : String
  span : Span
deriving DecidableEq, Repr

def DegradedImport.message (d : DegradedImport) : String :=
  "`" ++ d.localName ++ "` from `" ++ d.specifier ++
    "` could not be resolved and is applied at runtime"

end AtomicStyle
