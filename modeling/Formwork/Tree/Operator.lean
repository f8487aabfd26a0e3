/-!
# Operators

The operators of expressions and the signs they are written with.
-/

namespace Formwork

/-- The operators between two operands. -/
inductive BinaryOp where
  | or | xor | and | eq | notEq | less | lessEq | greater | greaterEq
  | add | sub | mul | div | mod | pow
deriving DecidableEq, Repr, Inhabited

/-- The sign of an operator. -/
def BinaryOp.symbol : BinaryOp → String
  | .or => "or"
  | .xor => "xor"
  | .and => "and"
  | .eq => "=="
  | .notEq => "!="
  | .less => "<"
  | .lessEq => "<="
  | .greater => ">"
  | .greaterEq => ">="
  | .add => "+"
  | .sub => "-"
  | .mul => "*"
  | .div => "/"
  | .mod => "%"
  | .pow => "^"

/-- The operators before one operand. -/
inductive UnaryOp where
  | neg | not
deriving DecidableEq, Repr, Inhabited

/-- The sign of an operator. -/
def UnaryOp.symbol : UnaryOp → String
  | .neg => "-"
  | .not => "not"

end Formwork
