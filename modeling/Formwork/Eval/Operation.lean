import Formwork.Decimal.Dyadic
import Formwork.Eval.World

/-!
# Operations on values

What operators do with their operands, and how elements of collections are read and changed.
-/

namespace Formwork

/-- Fails because an operator does not take two operands. -/
def operandMismatch (op : BinaryOp) (left right : Value) : Action α :=
  Action.mismatch (.operands op left.kind right.kind)

/-- An operator on two numbers that gives a number. -/
def arithmetic (op : BinaryOp) (f : Float → Float → Float) : Value → Value → Action Value
  | .number x, .number y => pure (.number (f x y))
  | left, right => operandMismatch op left right

/-- An operator on two numbers that takes the second apart, so that it must not be zero. -/
def division (op : BinaryOp) (f : Float → Float → Float) : Value → Value → Action Value
  | .number x, .number y => if y == 0 then throw .divisionByZero else pure (.number (f x y))
  | left, right => operandMismatch op left right

/-- An operator on two numbers that gives a truth value. -/
def comparison (op : BinaryOp) (f : Float → Float → Bool) : Value → Value → Action Value
  | .number x, .number y => pure (.bool (f x y))
  | left, right => operandMismatch op left right

/-- An operator on two truth values. -/
def connective (op : BinaryOp) (f : Bool → Bool → Bool) : Value → Value → Action Value
  | .bool x, .bool y => pure (.bool (f x y))
  | left, right => operandMismatch op left right

/-- The sum of two numbers, or a new list of the items of two lists. -/
def sum : Value → Value → Action Value
  | .list a, .list b => do Action.newList ((← Action.items a) ++ (← Action.items b))
  | left, right => arithmetic .add (· + ·) left right

/-- What an operator gives for the values of its operands. -/
def BinaryOp.apply (op : BinaryOp) (left right : Value) : Action Value :=
  match op with
  | .add => sum left right
  | .sub => arithmetic op (· - ·) left right
  | .mul => arithmetic op (· * ·) left right
  | .pow => arithmetic op Float.pow left right
  | .div => division op (· / ·) left right
  | .mod => division op remainder left right
  | .eq => do return .bool (← Action.equal left right)
  | .notEq => do return .bool !(← Action.equal left right)
  | .less => comparison op (fun x y => x < y) left right
  | .lessEq => comparison op (fun x y => x ≤ y) left right
  | .greater => comparison op (fun x y => y < x) left right
  | .greaterEq => comparison op (fun x y => y ≤ x) left right
  | .xor => connective op Bool.xor left right
  | .and => connective op Bool.and left right
  | .or => connective op Bool.or left right

/-- What an operator gives for the value of its operand. -/
def UnaryOp.apply (op : UnaryOp) (operand : Value) : Action Value :=
  match op, operand with
  | .neg, .number x => pure (.number (-x))
  | .not, .bool b => pure (.bool !b)
  | .neg, v => Action.mismatch (.negate v.kind)
  | .not, v => Action.mismatch (.not v.kind)

/-- The position that a value names in a list of a given length; it must be below `bound`. -/
def listIndex (key : Value) (length bound : Nat) : Except EvalError Nat :=
  match key.number? with
  | .error e => .error e
  | .ok x =>
    if isIntegral x && 0 ≤ x && x < bound.toUInt64.toFloat then .ok x.toUInt64.toNat
    else .error (.indexOutOfBounds x length)

/-- An element of a list or map. -/
def elementAt (target key : Value) : Action Value :=
  match target with
  | .list id => do
    let items ← Action.items id
    let i ← MonadExcept.ofExcept (listIndex key items.size items.size)
    return items.getD i .unit
  | .map id => do
    match ← Action.lookup key (← Action.entries id) with
    | some v => return v
    | none => throw (.keyNotFound (← Action.text key))
  | v => Action.mismatch (.index v.kind)

/--
Changes an element of a list or map; a list may also be extended by one item. A map is locked while
its keys are compared with the new one.
-/
def setElement (target key value : Value) : Action Unit :=
  match target with
  | .list id => do
    let length := (← Action.items id).size
    let i ← MonadExcept.ofExcept (listIndex key length (length + 1))
    Action.change fun h => if i = length then h.pushItem id value else h.setItem id i value
  | .map id => do
    let entries ← Action.insertLocked id key value (← Action.entries id)
    Action.change (·.setEntries id entries)
  | v => Action.mismatch (.update v.kind)

/-- The items that a loop over a value goes through. -/
def itemsOf (iterable : Value) : Action (List Value) :=
  match iterable with
  | .list id => do return (← Action.items id).toList
  | .map id => do return (← Action.entries id).map (·.1)
  | v => Action.mismatch (.iterate v.kind)

end Formwork
