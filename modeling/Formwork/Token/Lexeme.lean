import Formwork.Text.Beginning
import Formwork.Token.Gap
import Formwork.Token.Keyword
import Formwork.Token.Punct

/-!
# Lexemes

A lexeme is one token as it stands in a text. Matching a token gives its lexeme, or nothing; the
gap after a token belongs to the token, so the next token starts at `Lexeme.next`.
-/

namespace Formwork

/-- One token as it stands in a text. -/
structure Lexeme where
  /-- The token's own text. -/
  text : String
  /-- Where the token starts. -/
  start : Cursor
  /-- The place right after the token. -/
  stop : Cursor
  /-- The position after the token and the gap that follows it. -/
  next : Position
deriving DecidableEq, Repr, Inhabited

namespace Lexeme

/-- The lexeme of the characters `text` at a position, where `rest` comes after them. -/
def ofChars (p : Position) (text rest : List Char) : Lexeme :=
  let stop := p.cursor.advance text
  ⟨String.ofList text, p.cursor, stop, Position.skipGap ⟨stop, rest⟩⟩

/-- The stretch of text that a lexeme covers. -/
def span (l : Lexeme) : Span := l.start.spanTo l.stop

end Lexeme

namespace Position

/-- The characters of the word at a position. -/
def wordChars (p : Position) : List Char :=
  if nextIs isWordStart p.rest then p.rest.takeWhile isWordChar else []

/-- The word at a position and the position after it. -/
def word? (p : Position) : Option (List Char × Position) :=
  match p.wordChars with
  | [] => none
  | word => some (word, ⟨p.cursor.advance word, p.rest.dropWhile isWordChar⟩)

/-- The characters `wanted` at a position, unless a character of `barred` follows them. -/
def literal? (p : Position) (wanted : List Char) (barred : Char → Bool) : Option Lexeme :=
  match stripChars? wanted p.rest with
  | none => none
  | some rest => if nextIs barred rest then none else some (Lexeme.ofChars p wanted rest)

/-- A word that is not a keyword. -/
def identifier? (p : Position) : Option Lexeme :=
  match p.wordChars with
  | [] => none
  | word =>
    if Keyword.isReserved word then none
    else some (Lexeme.ofChars p word (p.rest.dropWhile isWordChar))

/-- A keyword that is not the beginning of a longer word. -/
def keyword? (p : Position) (k : Keyword) : Option Lexeme := p.literal? k.chars isWordChar

/-- A punctuation token that is not the beginning of a longer one. -/
def punct? (p : Position) (t : Punct) : Option Lexeme :=
  p.literal? t.chars fun c => t.mustNotFollow.toList.contains c

end Position

end Formwork
