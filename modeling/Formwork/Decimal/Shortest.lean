import Formwork.Decimal.Digits
import Formwork.Decimal.Dyadic

/-!
# Shortest decimals

Among the decimals that read back as a given floating-point number, `Decimal.shortest` takes one
with the fewest digits, and among those the nearest; of two that are equally near, the larger. A
decimal reads back as a number when it lies between the halfway points to the two neighbours of the
number; the halfway points themselves count when the mantissa is even.
-/

namespace Formwork

/-- The number `digits * 10 ^ exponent`. -/
structure Decimal where
  /-- The digits, as a number. -/
  digits : Nat
  /-- The power of ten. -/
  exponent : Int
deriving DecidableEq, Repr

namespace Decimal

/-- A number and the halfway points to its neighbours, over one denominator. -/
structure Interval where
  /-- The halfway point below. -/
  low : Nat
  /-- The number. -/
  mid : Nat
  /-- The halfway point above. -/
  high : Nat
  /-- The common denominator. -/
  denominator : Nat
  /-- Whether the halfway points read back as the number. -/
  closed : Bool

namespace Interval

/-- The interval of a dyadic number. -/
def ofDyadic (x : Dyadic) : Interval :=
  let up := (x.exponent - 2).toNat
  let down := (2 - x.exponent).toNat
  let low := if x.narrow then 4 * x.mantissa - 1 else 4 * x.mantissa - 2
  let scale := Nat.pow 2 up
  ⟨low * scale, 4 * x.mantissa * scale, (4 * x.mantissa + 2) * scale, Nat.pow 2 down,
    x.mantissa % 2 = 0⟩

/-- Whether `digits` times `unit` reads back, where the interval is taken `scale` times. -/
def admits (i : Interval) (scale unit digits : Nat) : Bool :=
  let point := digits * unit
  if i.closed then i.low * scale ≤ point && point ≤ i.high * scale
  else i.low * scale < point && point < i.high * scale

/-- The nearest multiple of a power of ten, if one of the two next to the number reads back. -/
def nearest? (i : Interval) (exponent : Int) : Option Decimal :=
  let scale := Nat.pow 10 (-exponent).toNat
  let unit := i.denominator * Nat.pow 10 exponent.toNat
  let below := i.mid * scale / unit
  let above := below + 1
  match i.admits scale unit below, i.admits scale unit above with
  | true, true =>
    if 2 * (i.mid * scale) < (below + above) * unit then some ⟨below, exponent⟩
    else some ⟨above, exponent⟩
  | true, false => some ⟨below, exponent⟩
  | false, true => some ⟨above, exponent⟩
  | false, false => none

/-- The least power of ten above the number. -/
def magnitude (i : Interval) : Int :=
  if i.denominator ≤ i.mid then (Digits.ofNat (i.mid / i.denominator)).length
  else 1 - ((Digits.ofNat (i.denominator / i.mid)).length : Int)

end Interval

/-- No floating-point number needs more digits. -/
def maxDigits : Nat := 17

/-- A dyadic number, digit for digit. -/
def exact (x : Dyadic) : Decimal :=
  ⟨x.mantissa * Nat.pow 2 x.exponent.toNat * Nat.pow 5 (-x.exponent).toNat, min x.exponent 0⟩

/-- The shortest decimal that reads back as a number other than zero. -/
def shortest (x : Dyadic) : Decimal :=
  let i := Interval.ofDyadic x
  let magnitude := i.magnitude
  let found :=
    (List.range maxDigits).findSome? fun (n : Nat) => i.nearest? (magnitude - 1 - n)
  found.getD (exact x)

end Decimal

end Formwork
