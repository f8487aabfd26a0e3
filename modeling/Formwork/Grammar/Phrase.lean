import Formwork.Grammar.Operand
import Formwork.Token.Lexeme

/-!
# Phrases

A phrase describes a stretch of source text: tokens one after another, alternatives in order of
preference, repetitions, and references to the rules of the grammar. A grammar is a phrase for each
rule, so questions about the grammar are questions about data.
-/

namespace Formwork

/-- The tokens that phrases are made of, numbers apart. -/
inductive Terminal where
  | keyword (k : Keyword)
  | punct (p : Punct)
  | identifier
deriving DecidableEq, Repr

namespace Terminal

/-- How diagnostics name a token. -/
def label : Terminal → String
  | .keyword k => k.label
  | .punct p => p.label
  | .identifier => "identifier"

/-- The lexeme of a token at a position. -/
def match? (t : Terminal) (p : Position) : Option Lexeme :=
  match t with
  | .keyword k => p.keyword? k
  | .punct q => p.punct? q
  | .identifier => p.identifier?

end Terminal

/-- The operand that a token becomes. -/
inductive Leaf where
  | nothing
  | name
  | type
  | bool (value : Bool)
  | operator (op : BinaryOp)
  | constant
  | bounds (inclusive : Bool)
deriving DecidableEq, Repr

/-- The operand that a token becomes, given its lexeme. -/
def Leaf.operand? (leaf : Leaf) (lexeme : Lexeme) : Option Operand :=
  match leaf with
  | .nothing => none
  | .name => some (.name ⟨lexeme.text, lexeme.span⟩)
  | .type => some (.type ⟨lexeme.text, lexeme.span⟩)
  | .bool value => some (.expr (.bool value lexeme.span))
  | .operator op => some (.operator op)
  | .constant => some .constant
  | .bounds inclusive => some (.bounds inclusive)

/-- The rules of the grammar. -/
inductive Rule where
  | varDef | funDef | param | params | body | type | block | statements | statement
  | expression | update | boolean | conjunction | negation | comparison | sum | product | power
  | unary | suffixed | args | atom | collection | conditional | lambda
deriving DecidableEq, Repr

/-- All rules of the grammar. -/
def Rule.all : List Rule :=
  [.varDef, .funDef, .param, .params, .body, .type, .block, .statements, .statement,
    .expression, .update, .boolean, .conjunction, .negation, .comparison, .sum, .product, .power,
    .unary, .suffixed, .args, .atom, .collection, .conditional, .lambda]

/-- The rules that several alternatives try at the same place, so that a failure is remembered. -/
inductive Memo where
  | args | conditional | lambda
deriving DecidableEq, Repr

/-- A description of a stretch of source text. -/
inductive Phrase where
  /-- A token. -/
  | token (t : Terminal) (leaf : Leaf)
  /-- A number literal. -/
  | number
  /-- What a rule describes. -/
  | rule (r : Rule)
  /-- One phrase after another. -/
  | seq (first second : Phrase)
  /-- The first phrase, or else the second. -/
  | choice (first second : Phrase)
  /-- One phrase after a token, or another where the token is not next. -/
  | branch (t : Terminal) (yes no : Phrase)
  /-- A phrase that leaves nothing behind when it fails. -/
  | attempt (phrase : Phrase)
  /-- A phrase, or nothing. -/
  | option (phrase : Phrase)
  /-- A phrase, any number of times. -/
  | many (phrase : Phrase)
  /-- A phrase one level of nesting deeper. -/
  | nested (phrase : Phrase)
  /-- A phrase that is not tried again where it failed. -/
  | remembered (memo : Memo) (phrase : Phrase)
  /-- A phrase or nothing if the newest operand is an element, else nothing. -/
  | afterIndex (phrase : Phrase)
  /-- The end of a phrase, where its operands become one. -/
  | reduce (r : Reduction)
deriving DecidableEq, Repr

namespace Phrase

/-- A token that leaves no operand. -/
def word (k : Keyword) : Phrase := .token (.keyword k) .nothing

/-- A token that leaves no operand. -/
def sign (p : Punct) : Phrase := .token (.punct p) .nothing

/-- A name. -/
def ident : Phrase := .token .identifier .name

/-- Phrases one after another; the last one is given apart. -/
def chain (phrases : List Phrase) (last : Phrase) : Phrase := phrases.foldr .seq last

/-- The first of several phrases that succeeds; the last one is given apart. -/
def firstOf (phrases : List Phrase) (last : Phrase) : Phrase :=
  phrases.foldr .choice (.attempt last)

/-- The operators `ops`, whichever is next. -/
def operators : List (Terminal × BinaryOp) → Terminal × BinaryOp → Phrase :=
  fun ops last =>
    ops.foldr (fun (t, op) rest => .choice (.token t (.operator op)) rest)
      (.token last.1 (.operator last.2))

/-- Operands divided by operators, grouped to the left. -/
def leftFold (operand : Rule) (ops : List (Terminal × BinaryOp)) (last : Terminal × BinaryOp) :
    Phrase :=
  .seq (.rule operand) <|
    .many <| chain [operators ops last, .rule operand] (.reduce .binary)

/-- Items divided by commas, if there are any. -/
def commaList (item : Phrase) : Phrase := .seq item (.many (.seq (sign .comma) item))

end Phrase

end Formwork
