/-!
# Words and keywords

A word is a letter or underscore followed by letters, digits and underscores, all ASCII. The
keywords are the words that cannot be used as names. `Keyword.reserved` is the table of these words,
and a word is in it if and only if it is a keyword: `Keyword.isReserved_iff`.
-/

namespace Formwork

/-- Whether a character can start a word. -/
def isWordStart (c : Char) : Bool := c.isAlpha || c == '_'

/-- Whether a character can continue a word. -/
def isWordChar (c : Char) : Bool := c.isAlphanum || c == '_'

/-- The reserved words. -/
inductive Keyword where
  | import_ | const | fun_ | new | return_ | this | if_ | then_ | else_ | for_ | in_ | do_
  | while_ | step | or | and | not | xor | nor | nand | true_ | false_
deriving DecidableEq, Repr, Inhabited

namespace Keyword

/-- All keywords, in the order of their declaration. -/
def all : List Keyword :=
  [.import_, .const, .fun_, .new, .return_, .this, .if_, .then_, .else_, .for_, .in_, .do_,
    .while_, .step, .or, .and, .not, .xor, .nor, .nand, .true_, .false_]

/-- How a keyword is written. -/
def text : Keyword → String
  | .import_ => "import"
  | .const => "const"
  | .fun_ => "fun"
  | .new => "new"
  | .return_ => "return"
  | .this => "this"
  | .if_ => "if"
  | .then_ => "then"
  | .else_ => "else"
  | .for_ => "for"
  | .in_ => "in"
  | .do_ => "do"
  | .while_ => "while"
  | .step => "step"
  | .or => "or"
  | .and => "and"
  | .not => "not"
  | .xor => "xor"
  | .nor => "nor"
  | .nand => "nand"
  | .true_ => "true"
  | .false_ => "false"

/-- The characters of a keyword. -/
def chars (k : Keyword) : List Char := k.text.toList

/-- How diagnostics name a keyword. -/
def label (k : Keyword) : String := s!"'{k.text}'"

/-- The words that are reserved. -/
def reserved : List String :=
  ["import", "const", "fun", "new", "return", "this", "if", "then", "else", "for", "in", "do",
    "while", "step", "or", "and", "not", "xor", "nor", "nand", "true", "false"]

/-- Whether a word is reserved. -/
def isReserved (word : List Char) : Bool := reserved.any fun text => text.toList == word

theorem mem_all (k : Keyword) : k ∈ all := by
  cases k <;> decide

/-- The reserved words are how the keywords are written, in the same order. -/
theorem reserved_eq : reserved = all.map text := rfl

/-- A word is reserved if and only if a keyword is written so. -/
theorem isReserved_iff {word : List Char} :
    isReserved word = true ↔ ∃ k : Keyword, k.chars = word := by
  simp [isReserved, reserved_eq, chars, mem_all]

end Keyword

end Formwork
