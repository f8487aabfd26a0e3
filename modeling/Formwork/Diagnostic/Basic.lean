import Formwork.Text.Sorted
import Formwork.Text.Span

/-!
# Diagnostics

A diagnostic reports one place where a source text is not a program: a code, a message, the span,
what could have stood there, and the line of the source for the reader. `Diagnostics` collects them
up to a limit and goes on counting beyond it.
-/

namespace Formwork

/-- The kinds of diagnostics, as numbers. -/
abbrev Code := Nat

namespace Code

/-- Nothing that could stand at a place stands there. -/
def unexpectedInput : Code := 100

/-- A number literal starts but does not end well. -/
def malformedNumber : Code := 101

/-- No definition starts where one could. -/
def trailingInput : Code := 102

/-- Expressions or statements are nested beyond the limit. -/
def nestingTooDeep : Code := 103

end Code

/-- One place where a source text is not a program. -/
structure Diagnostic where
  /-- The name of the source. -/
  file : String
  /-- What kind of diagnostic it is. -/
  code : Code
  /-- The message for the reader. -/
  message : String
  /-- Where it applies. -/
  span : Span
  /-- What could have stood there, in increasing order. -/
  expected : List String
  /-- The line of the source where the span starts. -/
  sourceLine : String
deriving DecidableEq, Repr, Inhabited

namespace Diagnostic

/-- How a diagnostic is shown. -/
def text (d : Diagnostic) : String :=
  let head := d.span.text ++ ": E" ++ toString d.code ++ " " ++ d.message
  if d.expected.isEmpty then head
  else head ++ " (expected one of: " ++ ", ".intercalate d.expected ++ ")"

end Diagnostic

/-- Diagnostics in the order they were found. -/
structure Diagnostics where
  /-- Those that were stored. -/
  stored : List Diagnostic
  /-- How many there were, stored or not. -/
  total : Nat
  /-- How many may be stored. -/
  limit : Nat
deriving DecidableEq, Repr, Inhabited

namespace Diagnostics

/-- How many diagnostics are stored unless a limit is given. -/
def defaultLimit : Nat := 20

/-- No diagnostics yet, with room for `limit`. -/
def empty (limit : Nat) : Diagnostics := ⟨[], 0, limit⟩

/-- One more diagnostic: stored if there is room, counted in any case. -/
def push (ds : Diagnostics) (d : Diagnostic) : Diagnostics :=
  { ds with
    stored := if ds.stored.length < ds.limit then ds.stored ++ [d] else ds.stored
    total := ds.total + 1 }

/-- One more diagnostic for each of a list. -/
def pushAll (ds : Diagnostics) (more : List Diagnostic) : Diagnostics := more.foldl push ds

/-- Whether any were found. -/
def hasErrors (ds : Diagnostics) : Bool := 0 < ds.total

/-- Whether the limit has been reached. -/
def isFull (ds : Diagnostics) : Bool := ds.limit ≤ ds.total

/-- How a collection is shown: one to a line, then how many were not stored. -/
def text (ds : Diagnostics) : String :=
  let lines := "\n".intercalate (ds.stored.map Diagnostic.text)
  if ds.stored.length < ds.total then
    lines ++ "\n... and " ++ toString (ds.total - ds.stored.length) ++ " more"
  else lines

end Diagnostics

end Formwork
