import Formwork.Decimal.Layout
import Formwork.Value.Basic

/-!
# Evaluation errors

Why running a program can fail. Each error states its cause; `EvalError.message` words it.
-/

namespace Formwork

/-- What a program can run out of. -/
inductive Resource where
  | instructions
  /-- Time in milliseconds. -/
  | time
  | callDepth
deriving DecidableEq, Repr, Inhabited

/-- How messages name a resource. -/
def Resource.text : Resource → String
  | .instructions => "instruction"
  | .time => "time"
  | .callDepth => "call depth"

/-- Ways in which values are of the wrong kind or of the wrong number. -/
inductive Mismatch where
  /-- A value of one kind stands where another kind is needed. -/
  | expected (wanted got : Kind)
  /-- An operator does not take these operands. -/
  | operands (op : BinaryOp) (left right : Kind)
  | negate (kind : Kind)
  | not (kind : Kind)
  | index (kind : Kind)
  | update (kind : Kind)
  | iterate (kind : Kind)
  | call (kind : Kind)
  /-- A function is given more arguments than it has parameters. -/
  | tooManyArguments (function : String) (takes got : Nat)
  /-- A parameter without a default is given no argument. -/
  | missingArgument (param function : String)
  /-- A builtin function is given the wrong number of arguments. -/
  | arity (builtin : String) (wants got : Nat)
  /-- A builtin function is given no argument at all. -/
  | noArguments (builtin : String)
  /-- A builtin function takes another kind of collection. -/
  | collection (builtin wants : String) (got : Kind)
deriving DecidableEq, Repr

/-- How a mismatch is worded. -/
def Mismatch.message : Mismatch → String
  | .expected wanted got => s!"expected {wanted.text}, got {got.text}"
  | .operands op left right => s!"cannot apply '{op.symbol}' to {left.text} and {right.text}"
  | .negate kind => s!"cannot negate {kind.text}"
  | .not kind => s!"cannot apply 'not' to {kind.text}"
  | .index kind => s!"cannot index into {kind.text}"
  | .update kind => s!"cannot update an element of {kind.text}"
  | .iterate kind => s!"cannot iterate over {kind.text}"
  | .call kind => s!"cannot call a {kind.text}"
  | .tooManyArguments function takes got => s!"{function} takes {takes} argument(s), got {got}"
  | .missingArgument param function => s!"missing argument '{param}' for {function}"
  | .arity builtin wants got => s!"{builtin} expects {wants} argument(s), got {got}"
  | .noArguments builtin => s!"{builtin} expects at least one argument"
  | .collection builtin wants got => s!"{builtin} expects {wants}, got {got.text}"

/-- Things that programs cannot do. -/
inductive Unsupported where
  /-- To return from inside an `if` that is used as a value. -/
  | returnInValue
  /-- To count in steps of zero. -/
  | zeroStep
  | method (name : String)
  | create (type : String)
  | assignConstant (name : String)
deriving DecidableEq, Repr

/-- How an unsupported operation is worded. -/
def Unsupported.message : Unsupported → String
  | .returnInValue => "return inside an if used as a value"
  | .zeroStep => "range step of zero"
  | .method name => s!"unknown method '{name}'"
  | .create type => s!"cannot create '{type}'"
  | .assignConstant name => s!"cannot assign to constant '{name}'"

/--
Why running a program fails. The last two are no errors that are reported to the host: the program
never comes back, or is broken off.
-/
inductive EvalError where
  | nameNotFound (name : String)
  | typeMismatch (cause : Mismatch)
  | divisionByZero
  | unsupported (cause : Unsupported)
  /-- A limit is exceeded. -/
  | resourceExceeded (resource : Resource) (limit used : Nat)
  | indexOutOfBounds (index : Float) (length : Nat)
  /-- A map has no such key; the key is given as it is shown. -/
  | keyNotFound (key : String)
  /-- A builtin function fails for a reason of its own. -/
  | builtin (name message : String)
  /-- A comparison of maps goes on forever. -/
  | endlessComparison
  /-- A map is compared with another one while its entries are changed. -/
  | lockedMap
deriving Inhabited

/-- How an error is worded. -/
def EvalError.message : EvalError → String
  | .nameNotFound name => s!"name not found: {name}"
  | .typeMismatch cause => s!"type mismatch: {cause.message}"
  | .divisionByZero => "division by zero"
  | .unsupported cause => s!"unsupported operation: {cause.message}"
  | .resourceExceeded resource limit used =>
    s!"{resource.text} limit of {limit} exceeded ({used} used)"
  | .indexOutOfBounds index length =>
    s!"index {Layout.positional.text index} out of bounds for list of length {length}"
  | .keyNotFound key => s!"key not found: {key}"
  | .builtin name message => s!"builtin '{name}' failed: {message}"
  | .endlessComparison => "comparison never ends"
  | .lockedMap => "comparison of a map that is being changed"

/-- The number that a value is. -/
def Value.number? : Value → Except EvalError Float
  | .number x => .ok x
  | v => .error (.typeMismatch (.expected .number v.kind))

/-- The truth value that a value is. -/
def Value.bool? : Value → Except EvalError Bool
  | .bool b => .ok b
  | v => .error (.typeMismatch (.expected .bool v.kind))

end Formwork
