import Formwork.Text.Position

/-!
# Gaps

A gap is any run of blanks, block comments and line comments. Block comments do not nest, and one
that is never closed is no gap. `Position.skipGap` steps over the longest gap at a position.
-/

namespace Formwork

namespace Gap

/-- The characters that separate tokens. -/
def isBlank (c : Char) : Bool :=
  c == ' ' || c == '\t' || c == '\r' || c == '\n' || c == '\x0c'

/-- The number of characters up to and including the first `*/`. -/
def closing? : List Char → Option Nat
  | [] => none
  | '*' :: '/' :: _ => some 2
  | _ :: rest => (closing? rest).map (· + 1)

/-- Whether a character belongs to a line comment. -/
def inLine (c : Char) : Bool := c != '\r' && c != '\n'

/--
The length, less its first character, of the blank or comment that starts a text.
-/
def piece? : List Char → Option Nat
  | [] => none
  | '/' :: '*' :: rest => (closing? rest).map (· + 1)
  | '/' :: '/' :: rest => some ((rest.takeWhile inLine).length + 1)
  | c :: _ => if isBlank c then some 0 else none

/--
Steps over `pending` characters of a piece already recognised, then over every further piece.
-/
def skipFrom : Nat → Cursor → List Char → Position
  | _, place, [] => ⟨place, []⟩
  | pending + 1, place, c :: rest => skipFrom pending (place.step c) rest
  | 0, place, c :: rest =>
    match piece? (c :: rest) with
    | some more => skipFrom more (place.step c) rest
    | none => ⟨place, c :: rest⟩

end Gap

/-- The position after the longest gap. -/
def Position.skipGap (p : Position) : Position := Gap.skipFrom 0 p.cursor p.rest

end Formwork
