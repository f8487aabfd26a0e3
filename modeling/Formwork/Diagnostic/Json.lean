import Formwork.Diagnostic.Basic
import Formwork.Json.Reader
import Formwork.Json.Record
import Formwork.Json.Writer

/-!
# Diagnostics as JSON

The written form of spans, diagnostics and their collections. A diagnostic holds the four numbers of
its span as members of its own, leaves `expected` out when there is nothing to say, and may be read
back with members it does not know. The limit of a collection is not written; a collection that was
read back stores nothing more.
-/

namespace Formwork

open Json

/-- One more than the largest number that fits 16 bits. -/
def bound16 : Nat := 0x10000

/-- One more than the largest number that fits 32 bits. -/
def bound32 : Nat := 0x100000000

/-- One more than the largest number that fits 64 bits. -/
def bound64 : Nat := 0x10000000000000000

namespace Span

/-- The members that describe a span. -/
def members (s : Span) : List (String × Document) :=
  [("line", .ofNat s.startLine), ("column", .ofNat s.startCol), ("end_line", .ofNat s.endLine),
    ("end_column", .ofNat s.endCol)]

/-- A span as JSON. -/
def toJson (s : Span) : String := (Document.ofMembers s.members).compact

end Span

namespace Diagnostic

/-- How deep a member that a diagnostic does not know may be nested. -/
def unknownDepth : Nat := 124

/-- A diagnostic as a JSON object. -/
def toDocument (d : Diagnostic) : Document :=
  .ofMembers <|
    [("file", .ofString d.file), ("code", .ofNat d.code), ("message", .ofString d.message)] ++
      d.span.members ++
      (if d.expected.isEmpty then [] else [("expected", .array (d.expected.map .ofString))]) ++
      [("source_line", .ofString d.sourceLine)]

/-- The names of a diagnostic's members. -/
def memberNames : List String :=
  ["file", "code", "message", "line", "column", "end_line", "end_column", "expected",
    "source_line"]

/-- A list of texts. -/
def texts? (document : Document) : Option (List String) := do
  (← document.array?).mapM Document.string?

/-- The diagnostic that a JSON object describes. -/
def ofDocument? : Document → Option Diagnostic
  | .object members =>
    let known := fun (name : Option String) => memberNames.any (some · == name)
    if members.all fun (name, value) =>
        name.isSome && (known name || value.isPlain unknownDepth) then do
      let values ← Record.ofMembers? members memberNames
      match values with
      | [some file, some code, some message, some line, some column, some endLine,
          some endColumn, expected, some sourceLine] =>
        return {
          file := ← file.string?
          code := ← code.natBelow? bound16
          message := ← message.string?
          span := {
            startLine := ← line.natBelow? bound32
            startCol := ← column.natBelow? bound32
            endLine := ← endLine.natBelow? bound32
            endCol := ← endColumn.natBelow? bound32 }
          expected := ← Record.orDefault [] texts? expected
          sourceLine := ← sourceLine.string? }
      | _ => none
    else none
  | _ => none

end Diagnostic

namespace Diagnostics

/-- A collection as a JSON object. -/
def toDocument (ds : Diagnostics) : Document :=
  .ofMembers [("errors", .array (ds.stored.map Diagnostic.toDocument)),
    ("total_errors", .ofNat ds.total)]

/-- A collection as JSON. -/
def toJson (ds : Diagnostics) : String := ds.toDocument.compact

/-- The collection that a JSON document describes; it has no room for more. -/
def ofDocument? (document : Document) : Option Diagnostics := do
  match ← Record.fields? ["errors", "total_errors"] document with
  | [some errors, some total] =>
    return {
      stored := ← (← errors.array?).mapM Diagnostic.ofDocument?
      total := ← total.natBelow? bound64
      limit := 0 }
  | _ => none

/-- The collection that a JSON text describes. -/
def ofJson? (text : String) : Option Diagnostics := Document.read? text >>= ofDocument?

end Diagnostics

end Formwork
