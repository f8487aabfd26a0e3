import Formwork.Eval.Error

/-!
# Ranges

A range is a sequence of evenly spaced numbers. Its numbers are computed from their positions, so
that rounding errors do not add up.
-/

namespace Formwork

/-- The evenly spaced numbers from `first` towards `last`. -/
structure Range where
  /-- The first number. -/
  first : Float
  /-- The bound. -/
  last : Float
  /-- The distance from each number to the next. -/
  step : Float
  /-- Whether the bound itself may be in the range. -/
  inclusive : Bool

namespace Range

/-- The step from one number towards another when none is given. -/
def unitStep (first last : Float) : Float := if first ≤ last then 1 else -1

/-- A range; its step must not be zero. -/
def make (first last step : Float) (inclusive : Bool) : Except EvalError Range :=
  if step == 0 then .error (.unsupported .zeroStep) else .ok ⟨first, last, step, inclusive⟩

/-- The number at a position. -/
def value (r : Range) (i : Nat) : Float := r.first + i.toUInt64.toFloat * r.step

/-- Whether a number is not past the bound. -/
def within (r : Range) (x : Float) : Bool :=
  if 0 < r.step then if r.inclusive then x ≤ r.last else x < r.last
  else if r.inclusive then r.last ≤ x else r.last < x

end Range

end Formwork
