import AtomicStyle.Number.Binary

/-!
# Shortest decimals

The decimal with the fewest digits that reads back as a given binary number.  The reals that round
to the number form an interval; the shortest decimal is the point nearest to the number on the
coarsest grid of powers of ten that meets the interval.
-/

namespace AtomicStyle.Number

/-- The decimal `digits * 10 ^ exponent`. -/
structure Decimal where
  digits : Nat
  exponent : Int
deriving DecidableEq, Repr

/-- Which of two equally near decimals is taken. -/
inductive Tie where
  | up
  | toEven
deriving DecidableEq, Repr

namespace Binary

/-- The point nearest to `x` among those of the grid `10 ^ e` that read back as `x`. -/
def onGrid? (tie : Tie) (x : Binary) (e : Int) : Option Decimal :=
  -- All quantities are counted in units of `2 ^ (exponent - 2)`, scaled to integers.
  let scale := Nat.pow 2 (x.exponent - 2).toNat * Nat.pow 10 (-e).toNat
  let step := Nat.pow 2 (2 - x.exponent).toNat * Nat.pow 10 e.toNat
  let value := 4 * x.mantissa * scale
  let low := (if x.narrowBelow then 4 * x.mantissa - 1 else 4 * x.mantissa - 2) * scale
  let high := (4 * x.mantissa + 2) * scale
  let closed := x.mantissa % 2 == 0
  let readsBack (n : Nat) : Bool :=
    (low < n * step && n * step < high) || (closed && (low == n * step || n * step == high))
  let below := value / step
  let above := below + 1
  match below != 0 && readsBack below, readsBack above with
  | true, true =>
    if 2 * value < (below + above) * step then some ⟨below, e⟩
    else if 2 * value == (below + above) * step && tie == .toEven && below % 2 == 0 then
      some ⟨below, e⟩
    else some ⟨above, e⟩
  | true, false => some ⟨below, e⟩
  | false, true => some ⟨above, e⟩
  | false, false => none

/-- The decimal with the fewest digits that reads back as the magnitude of `x`, which is not zero.
The grids from `10 ^ 309` to `10 ^ -342` hold such a decimal for every binary64 number. -/
def shortest (tie : Tie) (x : Binary) : Decimal :=
  let grids := (List.range 652).map fun (i : Nat) => (309 : Int) - (i : Int)
  (grids.findSome? (x.onGrid? tie)).getD
    ⟨x.mantissa * Nat.pow 2 x.exponent.toNat * Nat.pow 5 (-x.exponent).toNat,
      if x.exponent ≤ 0 then x.exponent else 0⟩

end Binary

namespace Decimal

/-- The digits with a point where it belongs and no exponent. -/
def positional (d : Decimal) : String :=
  let digits := Nat.toDigits 10 d.digits
  let point := (digits.length : Int) + d.exponent
  if point ≤ 0 then
    String.ofList (['0', '.'] ++ List.replicate (-point).toNat '0' ++ digits)
  else if digits.length ≤ point.toNat then
    String.ofList (digits ++ List.replicate (point.toNat - digits.length) '0')
  else
    String.ofList (digits.take point.toNat ++ '.' :: digits.drop point.toNat)

end Decimal

/-- The text of a number.  Integers are written out in full, other numbers with the fewest digits
that identify them, never with an exponent; both zeros are `0`. -/
def text (x : Float) : String :=
  match Binary.ofFloat? x with
  | none => if x.isNaN then "NaN" else if x < 0 then "-Infinity" else "Infinity"
  | some b =>
    if b.mantissa == 0 then "0"
    else
      let magnitude :=
        if b.isIntegral then String.ofList (Nat.toDigits 10 b.truncate)
        else (b.shortest .up).positional
      if b.negative then "-" ++ magnitude else magnitude

end AtomicStyle.Number
