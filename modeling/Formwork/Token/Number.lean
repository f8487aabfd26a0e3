import Formwork.Decimal.Digits
import Formwork.Token.Lexeme

/-!
# Number literals

A number literal is an optional minus sign, digits, and an optional point with digits after it. A
literal that runs into a letter, a second fraction or a point with nothing behind it is malformed;
two points after a literal are the range operator and are left alone.
-/

namespace Formwork

/-- The parts of a well-formed number literal. -/
structure Literal where
  /-- Whether a minus sign comes first. -/
  negative : Bool
  /-- The digits before the point. -/
  whole : List Char
  /-- The digits after the point; none when there is no point. -/
  fraction : List Char
deriving DecidableEq, Repr, Inhabited

namespace Literal

/-- How a literal is written. -/
def chars (l : Literal) : List Char :=
  (if l.negative then ['-'] else []) ++ l.whole ++
    (if l.fraction.isEmpty then [] else '.' :: l.fraction)

/-- The value of a literal, rounded to the nearest floating-point number. -/
def value (l : Literal) : Float :=
  let size := Float.ofScientific (Digits.value (l.whole ++ l.fraction)) true l.fraction.length
  if l.negative then -size else size

/-- The fraction that starts a text, and what follows; no digits after the point is no fraction. -/
def fraction? : List Char → List Char × List Char
  | '.' :: rest =>
    match rest.takeWhile Char.isDigit with
    | [] => ([], '.' :: rest)
    | digits => (digits, rest.dropWhile Char.isDigit)
  | rest => ([], rest)

/-- The longest literal that starts a text, and what follows it. -/
def read? (text : List Char) : Option (Literal × List Char) :=
  let negative := nextIs (· == '-') text
  let unsigned := if negative then text.drop 1 else text
  match unsigned.takeWhile Char.isDigit with
  | [] => none
  | whole =>
    let (fraction, rest) := fraction? (unsigned.dropWhile Char.isDigit)
    some (⟨negative, whole, fraction⟩, rest)

/-- Whether a literal may not be followed by the given text. -/
def spoiledBy (l : Literal) : List Char → Bool
  | '.' :: rest => nextIs Char.isDigit rest || (l.fraction.isEmpty && !nextIs (· == '.') rest)
  | rest => nextIs isWordChar rest

/-- The characters that a malformed literal drags along after its well-formed part. -/
def spoiledTail : List Char → List Char
  | [] => []
  | c :: rest =>
    if isWordChar c || (c == '.' && !nextIs (· == '.') rest) then c :: spoiledTail rest else []

end Literal

/-- What a scan for a number literal finds. -/
inductive NumberScan where
  /-- No digits. -/
  | absent
  /-- A well-formed literal and its value. -/
  | number (value : Float) (lexeme : Lexeme)
  /-- A literal that goes wrong at `bad`; its lexeme covers the whole run. -/
  | malformed (bad : Cursor) (lexeme : Lexeme)
deriving Inhabited

/-- Scan for a number literal. -/
def Position.number (p : Position) : NumberScan :=
  match Literal.read? p.rest with
  | none => .absent
  | some (literal, rest) =>
    if literal.spoiledBy rest then
      let tail := Literal.spoiledTail rest
      .malformed (p.cursor.advance literal.chars)
        (Lexeme.ofChars p (literal.chars ++ tail) (rest.drop tail.length))
    else .number literal.value (Lexeme.ofChars p literal.chars rest)

end Formwork
