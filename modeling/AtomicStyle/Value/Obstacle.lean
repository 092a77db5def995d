/-!
# Obstacles

Why an expression has no value at build time.
-/

namespace AtomicStyle

/-- A form of expression that is never evaluated. -/
inductive Unsupported where
  | unaryOfNonNumber
  | objectInTemplate
  | spreadOfNonObject
  | arrayMethod
  | concatenationWithObject
  | additionOfNonNumbers
  | arithmeticOnNonNumbers
  | identityComparison
deriving DecidableEq, Repr

namespace Unsupported

def message : Unsupported → String
  | unaryOfNonNumber => "unary operator on a non-number"
  | objectInTemplate => "object inside a template"
  | spreadOfNonObject => "spread of a non-object"
  | arrayMethod => "array method"
  | concatenationWithObject => "string concatenation with an object"
  | additionOfNonNumbers => "addition of non-numbers"
  | arithmeticOnNonNumbers => "arithmetic on non-numbers"
  | identityComparison => "identity comparison"

end Unsupported

/-- The reason why an expression is left for run time. -/
inductive Obstacle where
  | unbound (name : String)
  | unresolved (specifier localName : String)
  | unknownCall
  | runtimeArgument
  | computedKey
  | memberOfNonObject
  | tooDeep
  | unsupported (what : Unsupported)
deriving DecidableEq, Repr

namespace Obstacle

def message : Obstacle → String
  | unbound name => "`" ++ name ++ "` is not statically known"
  | unresolved specifier localName =>
    "`" ++ localName ++ "` could not be resolved from `" ++ specifier ++ "`"
  | unknownCall => "call to an unknown function"
  | runtimeArgument => "call with a runtime argument"
  | computedKey => "computed key is not constant"
  | memberOfNonObject => "member access on a non-object value"
  | tooDeep => "evaluation depth exceeded"
  | unsupported what => "unsupported expression: " ++ what.message

/-- The obstacle of a computed key whose expression met another one. -/
def ofKey : Obstacle → Obstacle
  | unresolved specifier localName => unresolved specifier localName
  | _ => computedKey

/-- The obstacle of a call whose argument met another one. -/
def ofArgument : Obstacle → Obstacle
  | unresolved specifier localName => unresolved specifier localName
  | _ => runtimeArgument

/-- The obstacle of a call whose callee met another one. -/
def ofCallee : Obstacle → Obstacle
  | unresolved specifier localName => unresolved specifier localName
  | tooDeep => tooDeep
  | _ => unknownCall

end Obstacle

end AtomicStyle
