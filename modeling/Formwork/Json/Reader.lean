import Formwork.Json.Document
import Formwork.Json.Text
import Formwork.Text.Beginning

/-!
# Reading JSON

`Document.read?` reads a whole text: one value, with blanks allowed around every token and nothing
else after it. Names may repeat, nesting has no limit, and numbers may be of any size; what a
reader makes of these is its own affair.
-/

namespace Formwork

namespace Json

namespace Reader

/-- The characters that may stand around tokens. -/
def isBlank (c : Char) : Bool := c == ' ' || c == '\n' || c == '\t' || c == '\r'

/-- A text without its leading blanks. -/
def trim (text : List Char) : List Char := text.dropWhile isBlank

/-- A nonempty run of digits and what follows it. -/
def digits? (text : List Char) : Option (List Char × List Char) :=
  match text.takeWhile Char.isDigit with
  | [] => none
  | digits => some (digits, text.dropWhile Char.isDigit)

/-- The digits before the point: no leading zero, unless zero is all there is. -/
def whole? (text : List Char) : Option (List Char × List Char) :=
  match digits? text with
  | some ('0' :: _ :: _, _) => none
  | found => found

/-- The point and the digits after it, if a point is next. -/
def fraction? : List Char → Option (List Char × List Char)
  | '.' :: text => digits? text
  | text => some ([], text)

/-- The digits of an exponent, after its sign. -/
def signed? : List Char → Option ((Bool × List Char) × List Char)
  | '-' :: text => (digits? text).map fun (digits, rest) => ((true, digits), rest)
  | '+' :: text => (digits? text).map fun (digits, rest) => ((false, digits), rest)
  | text => (digits? text).map fun (digits, rest) => ((false, digits), rest)

/-- The exponent, if one is next. -/
def exponent? : List Char → Option (Option (Bool × List Char) × List Char)
  | 'e' :: text | 'E' :: text => (signed? text).map fun (exponent, rest) => (some exponent, rest)
  | text => some (none, text)

/-- A number without its sign. -/
def unsigned? (negative : Bool) (text : List Char) : Option (Numeral × List Char) := do
  let (whole, text) ← whole? text
  let (fraction, text) ← fraction? text
  let (exponent, text) ← exponent? text
  return (⟨negative, whole, fraction, exponent⟩, text)

/-- A number. -/
def numeral? : List Char → Option (Numeral × List Char)
  | '-' :: text => unsigned? true text
  | text => unsigned? false text

mutual

/-- A value, after any blanks. -/
def value? : Nat → List Char → Option (Document × List Char)
  | 0, _ => none
  | fuel + 1, text =>
    match trim text with
    | '"' :: rest => (Text.read? rest).map fun (text, rest) => (.string text, rest)
    | '[' :: rest =>
      match trim rest with
      | ']' :: rest => some (.array [], rest)
      | _ => (items? fuel rest).map fun (items, rest) => (.array items, rest)
    | '\x7b' :: rest =>
      match trim rest with
      | '\x7d' :: rest => some (.object [], rest)
      | _ => (members? fuel rest).map fun (members, rest) => (.object members, rest)
    | 'n' :: rest => (stripChars? ['u', 'l', 'l'] rest).map fun rest => (.null, rest)
    | 't' :: rest => (stripChars? ['r', 'u', 'e'] rest).map fun rest => (.bool true, rest)
    | 'f' :: rest => (stripChars? ['a', 'l', 's', 'e'] rest).map fun rest => (.bool false, rest)
    | text => (numeral? text).map fun (n, rest) => (.number n, rest)

/-- The items of a nonempty array, up to its closing bracket. -/
def items? : Nat → List Char → Option (List Document × List Char)
  | 0, _ => none
  | fuel + 1, text =>
    match value? fuel text with
    | none => none
    | some (item, rest) =>
      match trim rest with
      | ']' :: rest => some ([item], rest)
      | ',' :: rest => (items? fuel rest).map fun (items, rest) => (item :: items, rest)
      | _ => none

/-- The members of a nonempty object, up to its closing brace. -/
def members? : Nat → List Char → Option (List (Option String × Document) × List Char)
  | 0, _ => none
  | fuel + 1, text =>
    match trim text with
    | '"' :: rest =>
      match Text.read? rest with
      | none => none
      | some (name, rest) =>
        match trim rest with
        | ':' :: rest =>
          match value? fuel rest with
          | none => none
          | some (value, rest) =>
            match trim rest with
            | '\x7d' :: rest => some ([(name, value)], rest)
            | ',' :: rest =>
              (members? fuel rest).map fun (members, rest) => ((name, value) :: members, rest)
            | _ => none
        | _ => none
    | _ => none

end

end Reader

/--
The document that a text holds. Every two steps of the reader take at least one character, so twice
the length is fuel enough.
-/
def Document.read? (text : String) : Option Document :=
  let chars := text.toList
  match Reader.value? (2 * chars.length + 2) chars with
  | some (document, rest) => if (Reader.trim rest).isEmpty then some document else none
  | none => none

end Json

end Formwork
