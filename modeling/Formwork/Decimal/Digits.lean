/-!
# Decimal digits

Runs of decimal digits and the numbers they stand for.
-/

namespace Formwork

namespace Digits

/-- The number that a run of decimal digits stands for. -/
def value (digits : List Char) : Nat :=
  digits.foldl (fun n c => 10 * n + (c.toNat - '0'.toNat)) 0

/-- The decimal digits of a number, without leading zeros. -/
def ofNat (n : Nat) : List Char := Nat.toDigits 10 n

end Digits

end Formwork
