import Formwork.Text.Source

/-!
# Positions

A position is a cursor together with the characters that follow it. Scans run on positions, so that
matching a token is matching the head of a list and no scan can read outside the text.
-/

namespace Formwork

/-- A place in a text and what follows it. -/
structure Position where
  /-- Where the position stands. -/
  cursor : Cursor
  /-- The characters from there to the end. -/
  rest : List Char
deriving DecidableEq, Repr, Inhabited

namespace Position

/-- The first position of a text. -/
def ofText (text : String) : Position := ⟨.start, text.toList⟩

/-- The position of a cursor in a text; nothing follows it unless it stands between characters. -/
def seek (source : Source) (place : Cursor) : Position :=
  ⟨place, (Source.dropBytes place.offset source.text.toList).getD []⟩

/-- The next character. -/
def peek? (p : Position) : Option Char := p.rest.head?

/-- The next character and the position after it. -/
def next? (p : Position) : Option (Char × Position) :=
  match p.rest with
  | [] => none
  | c :: rest => some (c, ⟨p.cursor.step c, rest⟩)

/-- The position after the next character, or the same one at the end. -/
def skipOne (p : Position) : Position :=
  match p.rest with
  | [] => p
  | c :: rest => ⟨p.cursor.step c, rest⟩

/-- Whether nothing follows. -/
def isEnd (p : Position) : Bool := p.rest.isEmpty

end Position

end Formwork
