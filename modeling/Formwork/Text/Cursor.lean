import Formwork.Text.Span

/-!
# Cursors

A cursor names a place in a source text three times over: by its offset in UTF-8 bytes, by its line
and by its column in characters. Every cursor a scan hands out is `Cursor.start` advanced over the
characters before it, so the three always agree.
-/

namespace Formwork

/-- A place in a source text. -/
structure Cursor where
  /-- Bytes before this place. -/
  offset : Nat
  /-- Line, counted from one. -/
  line : Nat
  /-- Column in characters, counted from one. -/
  col : Nat
deriving DecidableEq, Repr, Inhabited

namespace Cursor

/-- The place of the first character. -/
def start : Cursor := ⟨0, 1, 1⟩

/-- The place after one character. -/
def step (p : Cursor) (c : Char) : Cursor :=
  if c = '\n' then ⟨p.offset + 1, p.line + 1, 1⟩ else ⟨p.offset + c.utf8Size, p.line, p.col + 1⟩

/-- The place after a run of characters. -/
def advance (p : Cursor) (text : List Char) : Cursor := text.foldl step p

@[simp]
theorem advance_nil (p : Cursor) : p.advance [] = p := rfl

@[simp]
theorem advance_cons (p : Cursor) (c : Char) (text : List Char) :
    p.advance (c :: text) = (p.step c).advance text := rfl

theorem advance_append (p : Cursor) (first second : List Char) :
    p.advance (first ++ second) = (p.advance first).advance second :=
  List.foldl_append

/-- Reading order: by offset, then by line, then by column. -/
def precedes (p q : Cursor) : Bool :=
  p.offset < q.offset ||
    (p.offset == q.offset && (p.line < q.line || (p.line == q.line && p.col < q.col)))

/-- The span of this place alone. -/
def point (p : Cursor) : Span := Span.point p.line p.col

/-- The span from this place up to, but not including, `stop`. -/
def spanTo (p stop : Cursor) : Span :=
  if stop.offset ≤ p.offset then p.point
  else ⟨p.line, p.col, stop.line, max (stop.col - 1) 1⟩

end Cursor

end Formwork
