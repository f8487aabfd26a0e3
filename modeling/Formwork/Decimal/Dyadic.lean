/-!
# Dyadic numbers

The size of a finite floating-point number is a natural number times a power of two. Exact
arithmetic on floating-point numbers goes through this form.
-/

namespace Formwork

/-- The size of a finite floating-point number, `mantissa * 2 ^ exponent`. -/
structure Dyadic where
  /-- The natural number. -/
  mantissa : Nat
  /-- The power of two. -/
  exponent : Int
  /-- Whether the next smaller number is only half as far away as the next larger one. -/
  narrow : Bool
deriving DecidableEq, Repr

namespace Dyadic

/-- The size of a finite number, read off its 64 bits. -/
def ofBits (bits : UInt64) : Dyadic :=
  let biased := (bits >>> 52 &&& 0x7FF).toNat
  let fraction := (bits &&& 0xFFFFFFFFFFFFF).toNat
  if biased = 0 then ⟨fraction, -1074, false⟩
  else ⟨0x10000000000000 + fraction, (biased : Int) - 1075, fraction = 0 && 1 < biased⟩

/-- The size of a finite number. -/
def ofFloat (x : Float) : Dyadic := ofBits x.toBits

end Dyadic

/-- Whether the sign of a number is a minus, that of a zero included. -/
def isNegative (x : Float) : Bool := x.toBits >>> 63 == 1

/-- Whether a number is finite and has no fraction. -/
def isIntegral (x : Float) : Bool := x.isFinite && x.floor == x

/-- The smaller of two numbers; one that is no number does not count. -/
def lesser (x y : Float) : Float := if x.isNaN then y else if y < x then y else x

/-- The larger of two numbers; one that is no number does not count. -/
def greater (x y : Float) : Float := if x.isNaN then y else if x < y then y else x

/--
What is left of the size of `x` after taking that of `y` away as often as possible, with the sign of
`x`. It is exact: both are brought to the smaller of the two exponents.
-/
def remainder (x y : Float) : Float :=
  if x.isNaN || y.isNaN || x.isInf || y == 0 then 0.0 / 0.0
  else if y.isInf then x
  else
    let a := Dyadic.ofFloat x
    let b := Dyadic.ofFloat y
    let exponent := min a.exponent b.exponent
    let size :=
      (a.mantissa * Nat.pow 2 (a.exponent - exponent).toNat) %
        (b.mantissa * Nat.pow 2 (b.exponent - exponent).toNat)
    let rest := Float.scaleB size.toFloat exponent
    if isNegative x then -rest else rest

end Formwork
