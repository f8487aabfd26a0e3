import Formwork.Decimal.Digits

/-!
# JSON documents

A document is what a JSON text says, with nothing decided yet that only some readers decide: a
numeral keeps its written form, and a string keeps the fact that an escape in it may name half of a
surrogate pair, which is no character.
-/

namespace Formwork

namespace Json

/-- A JSON number as it is written. -/
structure Numeral where
  /-- Whether a minus sign comes first. -/
  negative : Bool
  /-- The digits before the point. -/
  whole : List Char
  /-- The digits after the point. -/
  fraction : List Char
  /-- The sign and digits of the exponent, if one is written. -/
  exponent : Option (Bool × List Char)
deriving DecidableEq, Repr, Inhabited

namespace Numeral

/-- The plain numeral of a natural number. -/
def ofNat (n : Nat) : Numeral := ⟨false, Digits.ofNat n, [], none⟩

/-- The natural number that a numeral without sign, point and exponent stands for. -/
def natural? (n : Numeral) : Option Nat :=
  match n with
  | ⟨false, whole, [], none⟩ => some (Digits.value whole)
  | _ => none

/-- One more than the largest significand. -/
def significandBound : Nat := 0x10000000000000000

/--
Appends digits to a significand as long as it stays below the bound, and counts the digits that are
left.
-/
def absorb (significand : Nat) : List Char → Nat × Nat
  | [] => (significand, 0)
  | c :: rest =>
    let next := 10 * significand + Digits.value [c]
    if next < significandBound then absorb next rest else (significand, rest.length + 1)

/--
The significand of a numeral and the power of ten it is scaled by. Digits that do not fit the
significand count only by their place before the point.
-/
def scaled (n : Numeral) : Nat × Int :=
  let (whole, skipped) := absorb 0 n.whole
  let (significand, left) := absorb whole n.fraction
  let place : Int := (skipped : Int) - ((n.fraction.length - left : Nat) : Int)
  match n.exponent with
  | none => (significand, place)
  | some (true, size) => (significand, place - (Digits.value size : Int))
  | some (false, size) => (significand, place + (Digits.value size : Int))

/-- The largest power of ten that is a floating-point number. -/
def maxPower : Int := 308

/--
Whether a numeral can be read as a floating-point number. It is read by scaling its significand in
floating-point arithmetic, so a numeral just below the largest number may already be too large.
-/
def isFinite (n : Numeral) : Bool :=
  let (significand, power) := n.scaled
  significand = 0 || power < 0 ||
    (power ≤ maxPower &&
      (significand.toUInt64.toFloat * Float.ofScientific 1 false power.toNat).isFinite)

end Numeral

/-- What a JSON text says. -/
inductive Document where
  | null
  | bool (value : Bool)
  | number (value : Numeral)
  /-- A string; it has no text when an escape in it names half of a surrogate pair. -/
  | string (text : Option String)
  | array (items : List Document)
  /-- The members in the order they are written, repeated names included. -/
  | object (members : List (Option String × Document))
deriving Repr, Inhabited

namespace Document

/-- The document of a natural number. -/
def ofNat (n : Nat) : Document := .number (.ofNat n)

/-- The document of a text. -/
def ofString (text : String) : Document := .string (some text)

/-- The object with the given members. -/
def ofMembers (members : List (String × Document)) : Document :=
  .object (members.map fun (name, value) => (some name, value))

/-- A natural number below `bound`. -/
def natBelow? (bound : Nat) : Document → Option Nat
  | .number n => n.natural?.filter (· < bound)
  | _ => none

/-- The text of a string. -/
def string? : Document → Option String
  | .string text => text
  | _ => none

/-- The items of an array. -/
def array? : Document → Option (List Document)
  | .array items => some items
  | _ => none

mutual

/--
Whether every string in a document is a text, every number is finite, and arrays and objects are
nested at most `depth` deep.
-/
def isPlain (depth : Nat) : Document → Bool
  | .null | .bool _ => true
  | .number n => n.isFinite
  | .string text => text.isSome
  | .array items => depth != 0 && allPlain (depth - 1) items
  | .object members => depth != 0 && membersPlain (depth - 1) members

/-- `isPlain` of every item. -/
def allPlain (depth : Nat) : List Document → Bool
  | [] => true
  | item :: items => isPlain depth item && allPlain depth items

/-- `isPlain` of every member's value, and every name is a text. -/
def membersPlain (depth : Nat) : List (Option String × Document) → Bool
  | [] => true
  | (name, value) :: members => name.isSome && isPlain depth value && membersPlain depth members

end

end Document

end Json

end Formwork
