import Formwork.Decimal.Shortest

/-!
# Number texts

How a decimal is laid out. Values and messages write numbers positionally with the fewest digits
that read back; the form for inspection keeps a fraction on whole numbers and turns to powers of ten
for the very large and the very small.
-/

namespace Formwork

/-- The decisions of a layout. -/
structure Layout where
  /-- Which powers of ten of the first digit are written out in full. -/
  isPlain : Int → Bool
  /-- Whether a whole number that is written out in full gets a zero after a point. -/
  pointZero : Bool

namespace Layout

/-- Every number is written out in full. -/
def positional : Layout := ⟨fun _ => true, false⟩

/-- Numbers from `10 ^ -4` up to `10 ^ 16` are written out, whole ones with a zero after a point. -/
def inspection : Layout := ⟨fun e => -4 ≤ e && e < 16, true⟩

/-- A run of zeros. -/
def zeros (n : Nat) : List Char := List.replicate n '0'

/-- Digits without the zeros at their end. -/
def significant (digits : List Char) : List Char :=
  (digits.reverse.dropWhile (· == '0')).reverse

/-- The digits written out, where `point` of them stand before the point. -/
def plain (layout : Layout) (digits : List Char) (point : Int) : List Char :=
  if point ≤ 0 then '0' :: '.' :: (zeros (-point).toNat ++ digits)
  else
    let count := point.toNat
    if digits.length ≤ count then
      digits ++ zeros (count - digits.length) ++ (if layout.pointZero then ['.', '0'] else [])
    else digits.take count ++ '.' :: digits.drop count

/-- The digits with a point after the first one, and the power of ten. -/
def scientific (digits : List Char) (exponent : Int) : List Char :=
  let rest := digits.drop 1
  digits.take 1 ++ (if rest.isEmpty then [] else '.' :: rest) ++
    'e' :: (toString exponent).toList

/-- How the size of a finite number is written. -/
def size (layout : Layout) (x : Float) : List Char :=
  if x == 0 then layout.plain ['0'] 1
  else
    let decimal := Decimal.shortest (Dyadic.ofFloat x)
    let written := Digits.ofNat decimal.digits
    let point := decimal.exponent + written.length
    let digits := significant written
    if layout.isPlain (point - 1) then layout.plain digits point
    else scientific digits (point - 1)

/-- How a number is written. -/
def text (layout : Layout) (x : Float) : String :=
  if x.isNaN then "NaN"
  else
    let body := if x.isInf then ['i', 'n', 'f'] else layout.size x
    String.ofList (if isNegative x then '-' :: body else body)

end Layout

end Formwork
