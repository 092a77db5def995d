import AtomicStyle.Number.Shortest

/-!
# Reading decimals

Decimal numerals with an optional sign, fraction and exponent, and the words for infinity and NaN
in any case.  The value is the nearest binary64 number.
-/

namespace AtomicStyle.Number

/-- The leading digits of a text and what follows them. -/
def digits (s : List Char) : List Char × List Char :=
  (s.takeWhile Char.isDigit, s.dropWhile Char.isDigit)

/-- The number that a list of decimal digits denotes. -/
def ofDigits (ds : List Char) : Nat :=
  ds.foldl (fun n d => 10 * n + (d.toNat - '0'.toNat)) 0

/-- A sign in front of a text; without one the text is positive. -/
def sign (s : List Char) : Bool × List Char :=
  match s with
  | '-' :: rest => (true, rest)
  | '+' :: rest => (false, rest)
  | _ => (false, s)

/-- The exponent at the end of a numeral, zero when there is none. -/
def exponent? (s : List Char) : Option Int :=
  match s with
  | [] => some 0
  | c :: rest =>
    if c == 'e' || c == 'E' then
      let (negative, body) := sign rest
      let (ds, after) := digits body
      if ds.isEmpty || !after.isEmpty then none
      else some (if negative then -(ofDigits ds : Int) else ofDigits ds)
    else none

/-- The decimal of an unsigned numeral. -/
def decimal? (s : List Char) : Option Decimal :=
  let (whole, rest) := digits s
  let (part, rest) := match rest with
    | '.' :: after => digits after
    | _ => ([], rest)
  if whole.isEmpty && part.isEmpty then none
  else (exponent? rest).map fun e => ⟨ofDigits (whole ++ part), e - part.length⟩

/-- The binary64 number nearest to a decimal. -/
def Decimal.toFloat (d : Decimal) : Float :=
  let size : Int := (Nat.toDigits 10 d.digits).length + d.exponent
  if d.digits == 0 || size < -330 then 0.0
  else if 330 < size then 1.0 / 0.0
  else if d.exponent < 0 then Float.ofScientific d.digits true (-d.exponent).toNat
  else Float.ofScientific d.digits false d.exponent.toNat

/-- The number that a text denotes. -/
def read? (s : List Char) : Option Float :=
  let (negative, body) := sign s
  let magnitude :=
    match decimal? body with
    | some d => some d.toFloat
    | none =>
      let word := String.ofList (body.map Char.toLower)
      if word == "inf" || word == "infinity" then some (1.0 / 0.0)
      else if word == "nan" then some (0.0 / 0.0)
      else none
  magnitude.map fun x => if negative then -x else x

/-- Whether a text denotes a number. -/
def isNumeral (s : List Char) : Bool :=
  (read? s).isSome

/-- The position that a text denotes: digits behind an optional plus sign, below `2 ^ 64`. -/
def position? (s : List Char) : Option Nat :=
  let body := match s with
    | '+' :: rest => rest
    | _ => s
  let (ds, after) := digits body
  if ds.isEmpty || !after.isEmpty || UInt64.size ≤ ofDigits ds then none else some (ofDigits ds)

end AtomicStyle.Number
