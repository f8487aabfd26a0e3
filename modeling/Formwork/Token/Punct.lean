/-!
# Punctuation

The punctuation tokens and, for each, the characters that must not follow it. These characters keep
a token from matching where a longer token starts, so at most one of them matches at a place.
-/

namespace Formwork

/-- The punctuation tokens. -/
inductive Punct where
  | comma | colon | semi | lparen | rparen | lbrace | rbrace | lbracket | rbracket
  | dot | dotDot | dotDotDot | assign | eq | notEq | less | lessEq | greater | greaterEq
  | plus | minus | star | slash | percent | caret
deriving DecidableEq, Repr, Inhabited

namespace Punct

/-- All punctuation tokens, in the order of their declaration. -/
def all : List Punct :=
  [.comma, .colon, .semi, .lparen, .rparen, .lbrace, .rbrace, .lbracket, .rbracket,
    .dot, .dotDot, .dotDotDot, .assign, .eq, .notEq, .less, .lessEq, .greater, .greaterEq,
    .plus, .minus, .star, .slash, .percent, .caret]

/-- How a token is written. -/
def text : Punct → String
  | .comma => ","
  | .colon => ":"
  | .semi => ";"
  | .lparen => "("
  | .rparen => ")"
  | .lbrace => "\x7b"
  | .rbrace => "\x7d"
  | .lbracket => "["
  | .rbracket => "]"
  | .dot => "."
  | .dotDot => ".."
  | .dotDotDot => "..."
  | .assign => "="
  | .eq => "=="
  | .notEq => "!="
  | .less => "<"
  | .lessEq => "<="
  | .greater => ">"
  | .greaterEq => ">="
  | .plus => "+"
  | .minus => "-"
  | .star => "*"
  | .slash => "/"
  | .percent => "%"
  | .caret => "^"

/-- The characters of a token. -/
def chars (p : Punct) : List Char := p.text.toList

/-- How diagnostics name a token. -/
def label (p : Punct) : String := s!"'{p.text}'"

/-- The characters that must not come right after a token. -/
def mustNotFollow : Punct → String
  | .dot | .dotDot => "."
  | .assign | .less | .greater | .plus | .minus | .star | .percent | .caret => "="
  | .slash => "=/*"
  | _ => ""

end Punct

end Formwork
