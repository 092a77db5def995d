import AtomicStyle.Module.Path
import AtomicStyle.Module.Unit
import AtomicStyle.Number.Shortest

/-!
# Constants

The values that expressions have at build time, with the conversions of the script language that
styles can observe: truth, text and equality.
-/

namespace AtomicStyle

/-- A value known at build time. -/
inductive Value where
  | undefined
  | null
  | bool (value : Bool)
  | num (value : Float)
  | str (value : String)
  | array (items : List Value)
  /-- An object with its members in the order in which their keys were first written. -/
  | object (members : List (String × Value))
  /-- A function with the unit and the local values its body sees. -/
  | function (params : List String) (body : Expr) (unit : SourceUnit)
    (scope : List (String × Value))
  /-- A module whose exports are members. -/
  | module (unit : SourceUnit)

namespace Value

instance : Inhabited Value := ⟨.undefined⟩

/-- The word for the kind of a value. -/
def typeName : Value → String
  | undefined => "undefined"
  | null => "null"
  | bool _ => "boolean"
  | num _ => "number"
  | str _ => "string"
  | array _ => "array"
  | object _ => "object"
  | function .. => "function"
  | module _ => "module"

/-- Whether a test with this value succeeds. -/
def isTruthy : Value → Bool
  | undefined | null => false
  | bool value => value
  | num value => value != 0 && !value.isNaN
  | str value => !value.isEmpty
  | _ => true

def isNullish : Value → Bool
  | undefined | null => true
  | _ => false

/-- Whether a value has an identity of its own, so that comparing it is not a matter of content. -/
def isReference : Value → Bool
  | array _ | object _ | function .. | module _ => true
  | _ => false

/-- Whether a value can be called. -/
def isFunction : Value → Bool
  | function .. => true
  | _ => false

mutual

/-- The text of a value.  Arrays join the texts of their items; objects, functions and modules have
none. -/
def text? : Value → Option String
  | undefined => some "undefined"
  | null => some "null"
  | bool value => some (if value then "true" else "false")
  | num value => some (Number.text value)
  | str value => some value
  | array items => (itemTexts? items).map (String.intercalate ",")
  | object _ | function .. | module _ => none

/-- The texts of array items; an absent item is empty. -/
def itemTexts? : List Value → Option (List String)
  | [] => some []
  | item :: rest => do
    let text ← if item.isNullish then some "" else item.text?
    return text :: (← itemTexts? rest)

end

/-- Whether two paths take the same steps. -/
def samePath (a b : SourceUnit) : Bool :=
  ModulePath.ofString a.path == ModulePath.ofString b.path

mutual

/-- Equality of values by content.  Objects are compared without regard to the order of their
members, and NaN differs from itself.  A function is equal to nothing but itself, so functions
agree only when both values are the outcome of one evaluation (`shared`). -/
def equal (shared : Bool) : Value → Value → Bool
  | undefined, undefined => true
  | null, null => true
  | bool a, bool b => a == b
  | num a, num b => a == b
  | str a, str b => a == b
  | array a, array b => equalItems shared a b
  | object a, object b => a.length == b.length && equalMembers shared a b
  | function .., function .. => shared
  | module a, module b => samePath a b
  | _, _ => false

def equalItems (shared : Bool) : List Value → List Value → Bool
  | [], [] => true
  | a :: as, b :: bs => equal shared a b && equalItems shared as bs
  | _, _ => false

/-- Whether every member has an equal in `other`. -/
def equalMembers (shared : Bool) : List (String × Value) → List (String × Value) → Bool
  | [], _ => true
  | (key, value) :: rest, other =>
    match other.lookup key with
    | some counterpart => equal shared value counterpart && equalMembers shared rest other
    | none => false

end

/-- The key that a value stands for inside brackets: a string, or the text of a number. -/
def key? : Value → Option String
  | str value => some value
  | num value => some (Number.text value)
  | _ => none

end Value

end AtomicStyle
