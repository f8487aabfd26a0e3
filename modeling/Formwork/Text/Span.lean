/-!
# Spans

A span names a stretch of source text by the line and column of its first and last character, both
counted from one. `Span.merge` is the least span that covers two others.
-/

namespace Formwork

/-- A stretch of source text, from its first to its last character. -/
structure Span where
  /-- Line of the first character. -/
  startLine : Nat
  /-- Column of the first character. -/
  startCol : Nat
  /-- Line of the last character. -/
  endLine : Nat
  /-- Column of the last character. -/
  endCol : Nat
deriving DecidableEq, Repr, Inhabited

namespace Span

/-- The span of a single place. -/
def point (line col : Nat) : Span := ⟨line, col, line, col⟩

/-- Reading order of two places, given as line and column. -/
def placeLe (line₁ col₁ line₂ col₂ : Nat) : Bool :=
  line₁ < line₂ || (line₁ == line₂ && col₁ ≤ col₂)

/-- The least span that covers both. -/
def merge (a b : Span) : Span :=
  let first := if placeLe a.startLine a.startCol b.startLine b.startCol then a else b
  let last := if placeLe a.endLine a.endCol b.endLine b.endCol then b else a
  ⟨first.startLine, first.startCol, last.endLine, last.endCol⟩

/-- A span is shown by the place where it starts. -/
def text (s : Span) : String := s!"{s.startLine}:{s.startCol}"

end Span

end Formwork
