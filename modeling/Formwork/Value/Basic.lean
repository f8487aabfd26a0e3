import Formwork.Tree.Basic

/-!
# Values

The values that programs compute with. Lists and maps are shared: a value of these kinds only names
the collection, and every copy of the value names the same one. A function value is made anew each
time a function is mentioned, and each of them is a thing of its own.
-/

namespace Formwork

/-- The scope with a given number. -/
structure ScopeId where
  /-- The number of the scope. -/
  index : Nat
deriving DecidableEq, Repr, Inhabited

/-- A function together with the scope it was made in. -/
structure Closure where
  /-- Tells this function from all others that were made. -/
  id : Nat
  /-- The function. -/
  function : FunctionDef
  /-- The scope it was made in. -/
  scope : ScopeId

/-- The values of programs. -/
inductive Value where
  | number (value : Float)
  | bool (value : Bool)
  /-- What statements give that give nothing. -/
  | unit
  /-- The list with a given number. -/
  | list (id : Nat)
  /-- The map with a given number. -/
  | map (id : Nat)
  | function (closure : Closure)
deriving Inhabited

/-- The kinds of values. -/
inductive Kind where
  | number | bool | unit | list | map | function
deriving DecidableEq, Repr, Inhabited

/-- The name of a kind. -/
def Kind.text : Kind → String
  | .number => "number"
  | .bool => "bool"
  | .unit => "unit"
  | .list => "list"
  | .map => "map"
  | .function => "function"

/-- The kind of a value. -/
def Value.kind : Value → Kind
  | .number _ => .number
  | .bool _ => .bool
  | .unit => .unit
  | .list _ => .list
  | .map _ => .map
  | .function _ => .function

/-- A shared collection. -/
inductive Handle where
  | list (id : Nat)
  | map (id : Nat)
deriving DecidableEq, Repr

/-- The collection that a value names. -/
def Value.handle? : Value → Option Handle
  | .list id => some (.list id)
  | .map id => some (.map id)
  | _ => none

end Formwork
