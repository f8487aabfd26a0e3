import Formwork.Text.Cursor

/-!
# Source texts

A source is a named text. Diagnostics quote it line by line, so `Source.line?` gives the lines,
counted from one and stripped of their line endings; `Source.slice` gives the text between two
cursors.
-/

namespace Formwork

/-- A named text. -/
structure Source where
  /-- The name shown in diagnostics. -/
  name : String
  /-- The whole text. -/
  text : String
deriving Inhabited

namespace Source

/-- The lines of a text, without the newlines that divide them. -/
def splitLines : List Char → List (List Char)
  | [] => [[]]
  | c :: rest =>
    match splitLines rest with
    | [] => [[c]]
    | line :: lines => if c = '\n' then [] :: line :: lines else (c :: line) :: lines

/-- A line without the carriage returns that end it. -/
def stripReturns (line : List Char) : List Char :=
  (line.reverse.dropWhile (· == '\r')).reverse

/-- The number of lines; even an empty text has one. -/
def lineCount (source : Source) : Nat := (splitLines source.text.toList).length

/-- Line `n`, counted from one, without its line ending. -/
def line? (source : Source) (n : Nat) : Option String :=
  if n = 0 then none
  else (splitLines source.text.toList)[n - 1]?.map fun line => String.ofList (stripReturns line)

/-- What is left of a text after its first `n` bytes, provided they end between two characters. -/
def dropBytes : Nat → List Char → Option (List Char)
  | 0, text => some text
  | _ + 1, [] => none
  | n + 1, c :: text => if c.utf8Size ≤ n + 1 then dropBytes (n + 1 - c.utf8Size) text else none

/-- The text between two cursors; empty when they bound no stretch of whole characters. -/
def slice (source : Source) (first last : Cursor) : String :=
  match dropBytes first.offset source.text.toList with
  | none => ""
  | some text =>
    if last.offset < first.offset then ""
    else
      match dropBytes (last.offset - first.offset) text with
      | none => ""
      | some rest => String.ofList (text.take (text.length - rest.length))

/-- Whether a cursor stands at the end of the text or beyond it. -/
def atEnd (source : Source) (place : Cursor) : Bool := source.text.utf8ByteSize ≤ place.offset

end Source

end Formwork
