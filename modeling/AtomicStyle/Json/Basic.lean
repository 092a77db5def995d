import AtomicStyle.Number.Shortest
import AtomicStyle.Sorted
import AtomicStyle.Text.Quoted

/-!
# JSON documents

A document as it was read.  A string may hold an escape that stands for no character and a number
may be too large; what is not used may hold such things, so they are told apart only when a document
is taken as data (`isData`).
-/

namespace AtomicStyle

/-- A number as it was written: sign, digits, digits after the point, and the exponent. -/
structure Numeral where
  negative : Bool
  whole : List Char
  fraction : List Char := []
  exponent : Option Int := none
deriving DecidableEq, Repr

/-- The number that a numeral stands for. -/
inductive JsonNumber where
  | integer (n : Int)
  | real (x : Float)

namespace Numeral

/-- The digits of a numeral that fit into 64 bits, and the power of ten to go with them. -/
structure Significand where
  digits : Nat := 0
  exponent : Int := 0
  full : Bool := false

/-- Whether one more digit fits into 64 bits. -/
def fits (digits : Nat) (digit : Nat) : Bool :=
  10 * digits + digit < UInt64.size

/-- Takes a digit before the point.  Once a digit does not fit, this one and all that follow only
move the point. -/
def Significand.takeWhole (s : Significand) (c : Char) : Significand :=
  let digit := c.toNat - '0'.toNat
  if !s.full && fits s.digits digit then { s with digits := 10 * s.digits + digit }
  else { s with exponent := s.exponent + 1, full := true }

/-- Takes a digit after the point.  Once a digit does not fit, this one and all that follow are left
out. -/
def Significand.takeFraction (s : Significand) (c : Char) : Significand :=
  let digit := c.toNat - '0'.toNat
  if !s.full && fits s.digits digit then
    { s with digits := 10 * s.digits + digit, exponent := s.exponent - 1 }
  else { s with full := true }

/-- The significand of a numeral. -/
def significand (n : Numeral) : Significand :=
  let whole := n.whole.foldl Significand.takeWhole {}
  let all := n.fraction.foldl Significand.takeFraction { whole with full := false }
  { all with exponent := all.exponent + n.exponent.getD 0 }

/-- The largest power of ten in one step of scaling. -/
def maxPower : Nat := 308

def powerOfTen (n : Nat) : Float :=
  Float.ofScientific 1 false n

/-- A number divided by a power of ten, in steps. -/
def scaleDown (x : Float) (n : Nat) : Float :=
  if n ≤ maxPower then x / powerOfTen n
  else if x == 0 then x
  else scaleDown (x / powerOfTen maxPower) (n - maxPower)
termination_by n
decreasing_by simp only [maxPower] at *; omega

/-- A number multiplied by a power of ten, unless it is too large. -/
def scaleUp? (x : Float) (n : Nat) : Option Float :=
  if n ≤ maxPower then
    let scaled := x * powerOfTen n
    if scaled.isInf then none else some scaled
  else if x == 0 then some x
  else none

/-- The number that a numeral stands for: an integer that fits into 64 bits, signed if it is
negative, or a floating point number. -/
def value? (n : Numeral) : Option JsonNumber :=
  let s := n.significand
  let isWhole := n.fraction.isEmpty && n.exponent.isNone
  if isWhole && s.exponent == 0 && (!n.negative || (s.digits != 0 && s.digits ≤ UInt64.size / 2)) then
    some (.integer (if n.negative then -(s.digits : Int) else s.digits))
  else
    let x := s.digits.toUInt64.toFloat
    let scaled := match s.exponent with
      | .ofNat e => scaleUp? x e
      | .negSucc e => some (scaleDown x (e + 1))
    scaled.map fun y => .real (if n.negative then -y else y)

end Numeral

namespace JsonNumber

/-- An exponent with its sign, which is written for positive exponents too. -/
def exponentText (e : Int) : String :=
  if 0 ≤ e then "e+" ++ toString e else "e" ++ toString e

/-- The digits with a point or, outside of the range from `10 ^ -5` to `10 ^ 16`, an exponent. -/
def layout (d : Number.Decimal) : String :=
  let digits := Nat.toDigits 10 d.digits
  let point := (digits.length : Int) + d.exponent
  if -5 < point && point ≤ 16 then
    if 0 ≤ d.exponent then d.positional ++ ".0" else d.positional
  else
    let rest := match digits with
      | c :: [] => [c]
      | c :: rest => c :: '.' :: rest
      | [] => []
    String.ofList rest ++ exponentText (point - 1)

/-- The text of a number.  A floating point number has a point or an exponent, and the fewest digits
that identify it. -/
def text : JsonNumber → String
  | integer n => toString n
  | real x =>
    match Number.Binary.ofFloat? x with
    | none => "null"
    | some b =>
      let magnitude := if b.mantissa == 0 then "0.0" else layout (b.shortest .toEven)
      if b.negative then "-" ++ magnitude else magnitude

end JsonNumber

/-- A JSON document.  A string is absent where its escapes stand for no text. -/
inductive Json where
  | null
  | bool (value : Bool)
  | number (n : Numeral)
  | string (text : Option String)
  | array (items : List Json)
  /-- The members in the order in which they stand, with repetitions. -/
  | object (members : List (Option String × Json))

namespace Json

instance : Inhabited Json := ⟨.null⟩

/-- The kind of a document, with its article. -/
def kind : Json → String
  | null => "null"
  | bool _ => "a boolean"
  | number _ => "a number"
  | string _ => "a string"
  | array _ => "an array"
  | object _ => "an object"

mutual

/-- Whether every string is text, every number is in range, and containers are nested in less than
`depth` others. -/
def isDataWithin (depth : Nat) : Json → Bool
  | null | bool _ => true
  | number n => n.value?.isSome
  | string text => text.isSome
  | array items => 0 < depth && areDataWithin (depth - 1) items
  | object members => 0 < depth && membersAreDataWithin (depth - 1) members

def areDataWithin (depth : Nat) : List Json → Bool
  | [] => true
  | item :: rest => isDataWithin depth item && areDataWithin depth rest

def membersAreDataWithin (depth : Nat) : List (Option String × Json) → Bool
  | [] => true
  | (key, value) :: rest =>
    key.isSome && isDataWithin depth value && membersAreDataWithin depth rest

end

/-- How many containers may be nested. -/
def maxDepth : Nat := 127

/-- Whether a document can be taken as data. -/
def isData (json : Json) : Bool :=
  json.isDataWithin maxDepth

mutual

/-- The text of a document without blanks, with ascending keys; of several members with one key the
last stays. -/
def compact : Json → String
  | null => "null"
  | bool value => if value then "true" else "false"
  | number n => match n.value? with
    | some x => x.text
    | none => "null"
  | string text => Text.quoted (text.getD "")
  | array items => "[" ++ String.intercalate "," (compactItems items) ++ "]"
  | object members =>
    let texts := (Sorted.ofList (compactMembers members)).map fun member =>
      Text.quoted member.1 ++ ":" ++ member.2
    "\x7b" ++ String.intercalate "," texts ++ "\x7d"

def compactItems : List Json → List String
  | [] => []
  | item :: rest => compact item :: compactItems rest

def compactMembers : List (Option String × Json) → List (String × String)
  | [] => []
  | (key, value) :: rest => (key.getD "", compact value) :: compactMembers rest

end

end Json

end AtomicStyle
