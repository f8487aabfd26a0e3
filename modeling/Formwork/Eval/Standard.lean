import Formwork.Decimal.Dyadic
import Formwork.Eval.Registry

/-!
# The standard builtin functions

Functions on numbers, functions on collections, and `print`.
-/

namespace Formwork

namespace Builtin

/-- The number of elements of a collection as a number of the language. -/
def count (n : Nat) : Value := .number n.toUInt64.toFloat

/-- A function of one number. -/
def ofNumber (name : String) (f : Float → Action Float) : Builtin
  | [v] => do
    let x ← Action.number v
    return .number (← f x)
  | args => Action.mismatch (.arity name 1 args.length)

/-- Combines all arguments, which are numbers, from the left. -/
def foldNumbers (f : Float → Float → Float) (acc : Float) : List Value → Action Float
  | [] => pure acc
  | v :: rest => do
    let x ← Action.number v
    foldNumbers f (f acc x) rest

/-- A function of at least one number. -/
def ofNumbers (name : String) (f : Float → Float → Float) : Builtin
  | [] => Action.mismatch (.noArguments name)
  | v :: rest => do
    let x ← Action.number v
    return .number (← foldNumbers f x rest)

/-- The square root of a number that is not negative. -/
def squareRoot (x : Float) : Action Float :=
  if x < 0 then throw (.builtin "sqrt" ("negative input " ++ Layout.positional.text x))
  else pure x.sqrt

/-- The number of items of a list or entries of a map. -/
def length : Builtin
  | [.list id] => do return count (← Action.items id).size
  | [.map id] => do return count (← Action.entries id).length
  | [v] => Action.mismatch (.collection "len" "a list or map" v.kind)
  | args => Action.mismatch (.arity "len" 1 args.length)

/-- Adds an item to a list, which is also the result. -/
def push : Builtin
  | [.list id, item] => do
    Action.change (·.pushItem id item)
    return .list id
  | [v, _] => Action.mismatch (.collection "push" "a list" v.kind)
  | args => Action.mismatch (.arity "push" 2 args.length)

/-- A new list of the keys of a map. -/
def keys : Builtin
  | [.map id] => do Action.newList ((← Action.entries id).map (·.1)).toArray
  | [v] => Action.mismatch (.collection "keys" "a map" v.kind)
  | args => Action.mismatch (.arity "keys" 1 args.length)

/-- Prints all arguments on one line. -/
def print : Builtin := fun args => do
  Action.print (" ".intercalate (← args.mapM Action.text))
  return .unit

end Builtin

namespace Registry

/-- The standard builtin functions. -/
def standard : Registry :=
  let numeric (name : String) (f : Float → Float) : String × Builtin :=
    (name, Builtin.ofNumber name fun x => pure (f x))
  let all : List (String × Builtin) :=
    [numeric "abs" Float.abs, numeric "sin" Float.sin, numeric "cos" Float.cos,
      numeric "tan" Float.tan, numeric "floor" Float.floor, numeric "ceil" Float.ceil,
      numeric "round" Float.round, ("sqrt", Builtin.ofNumber "sqrt" Builtin.squareRoot),
      ("min", Builtin.ofNumbers "min" lesser),
      ("max", Builtin.ofNumbers "max" greater), ("len", Builtin.length),
      ("push", Builtin.push), ("keys", Builtin.keys), ("print", Builtin.print)]
  all.foldl (fun r (name, builtin) => r.register name builtin) empty

end Registry

end Formwork
