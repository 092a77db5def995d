/-!
# Binary numbers

A finite binary64 number as a sign and a magnitude `mantissa * 2 ^ exponent`, read from its bits
and written back to them.
-/

namespace AtomicStyle.Number

/-- A finite number: its sign and its magnitude `mantissa * 2 ^ exponent`. -/
structure Binary where
  negative : Bool
  mantissa : Nat
  exponent : Int
deriving DecidableEq, Repr

namespace Binary

/-- The highest bit of a mantissa of full length, `2 ^ 52`, which is not stored. -/
def hiddenBit : Nat := 0x10000000000000

/-- The number with the given bits; infinities and NaN have none. -/
def ofBits? (bits : UInt64) : Option Binary :=
  let negative := bits >>> 63 == 1
  let biased := ((bits >>> 52) &&& 0x7FF).toNat
  let fraction := (bits &&& 0xFFFFFFFFFFFFF).toNat
  if biased == 0x7FF then none
  else if biased == 0 then some ⟨negative, fraction, -1074⟩
  else some ⟨negative, hiddenBit + fraction, (biased : Int) - 1075⟩

/-- The finite number that a float holds. -/
def ofFloat? (x : Float) : Option Binary :=
  ofBits? x.toBits

/-- The bits of a number whose mantissa has at most 53 binary digits and whose exponent is at
least -1074. -/
def toBits (x : Binary) : UInt64 :=
  let sign : UInt64 := if x.negative then 0x8000000000000000 else 0
  let top := x.mantissa.log2
  let biased := x.exponent + top + 1023
  if x.mantissa == 0 then sign
  else if biased < 1 then sign ||| (x.mantissa * Nat.pow 2 (x.exponent + 1074).toNat).toUInt64
  else
    sign ||| (biased.toNat.toUInt64 <<< 52) ||| (x.mantissa * Nat.pow 2 (52 - top) - hiddenBit).toUInt64

def toFloat (x : Binary) : Float :=
  Float.ofBits x.toBits

/-- Whether the number is an integer. -/
def isIntegral (x : Binary) : Bool :=
  x.mantissa % Nat.pow 2 (-x.exponent).toNat == 0

/-- The magnitude rounded toward zero. -/
def truncate (x : Binary) : Nat :=
  x.mantissa * Nat.pow 2 x.exponent.toNat / Nat.pow 2 (-x.exponent).toNat

/-- Whether the next smaller magnitude is only half as far away as the next larger one. -/
def narrowBelow (x : Binary) : Bool :=
  x.mantissa == hiddenBit && x.exponent > -1074

/-- The remainder of a division that rounds its quotient toward zero.  It is exact and has the
sign of the dividend.  The divisor is not zero. -/
def remainder (x y : Binary) : Binary :=
  let unit := if x.exponent ≤ y.exponent then x.exponent else y.exponent
  let dividend := x.mantissa * Nat.pow 2 (x.exponent - unit).toNat
  let divisor := y.mantissa * Nat.pow 2 (y.exponent - unit).toNat
  ⟨x.negative, dividend % divisor, unit⟩

end Binary

/-- The remainder of a floating-point division that rounds its quotient toward zero.  There is none
for an infinite dividend or a divisor of zero, and an infinite divisor leaves the dividend as it
is. -/
def remainder (x y : Float) : Float :=
  match Binary.ofFloat? x, Binary.ofFloat? y with
  | some a, some b => if b.mantissa == 0 then 0.0 / 0.0 else (a.remainder b).toFloat
  | some _, none => if y.isNaN then y else x
  | none, _ => 0.0 / 0.0

end AtomicStyle.Number
