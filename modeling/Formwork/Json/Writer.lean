import Formwork.Json.Document
import Formwork.Json.Text

/-!
# Writing JSON

`Document.compact` writes a document without blanks. `Document.pretty` gives every item and member a
line of its own, two blanks deeper than what holds it.
-/

namespace Formwork

namespace Json

namespace Numeral

/-- How a numeral is written. -/
def chars (n : Numeral) : List Char :=
  (if n.negative then ['-'] else []) ++ n.whole ++
    (if n.fraction.isEmpty then [] else '.' :: n.fraction) ++
    match n.exponent with
    | none => []
    | some (down, digits) => 'e' :: (if down then '-' :: digits else digits)

end Numeral

namespace Document

/-- A string, where one that is no text is written empty. -/
def quoted (text : Option String) : List Char := Text.quote (text.getD "")

/-- A value that holds no other. -/
def leaf : Document → List Char
  | .bool true => ['t', 'r', 'u', 'e']
  | .bool false => ['f', 'a', 'l', 's', 'e']
  | .number n => n.chars
  | .string text => quoted text
  | _ => ['n', 'u', 'l', 'l']

mutual

/-- The characters of a document without blanks. -/
def compactChars : Document → List Char
  | .array items => '[' :: compactItems items ++ [']']
  | .object members => '\x7b' :: compactMembers members ++ ['\x7d']
  | document => leaf document

/-- Items divided by commas. -/
def compactItems : List Document → List Char
  | [] => []
  | [item] => compactChars item
  | item :: items => compactChars item ++ ',' :: compactItems items

/-- Members divided by commas. -/
def compactMembers : List (Option String × Document) → List Char
  | [] => []
  | [(name, value)] => quoted name ++ ':' :: compactChars value
  | (name, value) :: members =>
    quoted name ++ ':' :: compactChars value ++ ',' :: compactMembers members

end

/-- A new line, indented to the given depth. -/
def newLine (depth : Nat) : List Char := '\n' :: List.replicate (2 * depth) ' '

mutual

/-- The characters of a document with one item or member to a line. -/
def prettyChars (depth : Nat) : Document → List Char
  | .array [] => ['[', ']']
  | .array items => '[' :: prettyItems (depth + 1) items ++ newLine depth ++ [']']
  | .object [] => ['\x7b', '\x7d']
  | .object members => '\x7b' :: prettyMembers (depth + 1) members ++ newLine depth ++ ['\x7d']
  | document => leaf document

/-- Items, each on a line of its own. -/
def prettyItems (depth : Nat) : List Document → List Char
  | [] => []
  | [item] => newLine depth ++ prettyChars depth item
  | item :: items => newLine depth ++ prettyChars depth item ++ ',' :: prettyItems depth items

/-- Members, each on a line of its own. -/
def prettyMembers (depth : Nat) : List (Option String × Document) → List Char
  | [] => []
  | [(name, value)] => newLine depth ++ quoted name ++ ':' :: ' ' :: prettyChars depth value
  | (name, value) :: members =>
    newLine depth ++ quoted name ++ ':' :: ' ' :: prettyChars depth value ++
      ',' :: prettyMembers depth members

end

/-- A document written without blanks. -/
def compact (document : Document) : String := String.ofList (compactChars document)

/-- A document written with one item or member to a line. -/
def pretty (document : Document) : String := String.ofList (prettyChars 0 document)

end Document

end Json

end Formwork
