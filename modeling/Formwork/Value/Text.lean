import Formwork.Decimal.Layout
import Formwork.Value.Heap

/-!
# Texts of values

How values are shown. A collection inside itself is shown as `[...]`; one that is only shared is
shown in full each time.
-/

namespace Formwork

/-- How a number is shown: a zero has no sign. -/
def numberText (x : Float) : String := if x == 0 then "0" else Layout.positional.text x

/-- How a truth value is shown. -/
def boolText (b : Bool) : String := if b then "true" else "false"

/-- How a function is shown. -/
def functionText (f : FunctionDef) : String := "<fun " ++ f.displayName ++ ">"

namespace Heap

/--
How a value is shown inside the collections `visiting`; at most `fuel` more can be inside one
another.
-/
def textWithin (h : Heap) : Nat → List Handle → Value → String
  | _, _, .number x => numberText x
  | _, _, .bool b => boolText b
  | _, _, .unit => "unit"
  | _, _, .function f => functionText f.function
  | 0, _, .list _ | 0, _, .map _ => "[...]"
  | fuel + 1, visiting, .list id =>
    if visiting.contains (.list id) then "[...]"
    else
      let inner := textWithin h fuel (.list id :: visiting)
      "[" ++ ", ".intercalate ((h.items id).toList.map inner) ++ "]"
  | fuel + 1, visiting, .map id =>
    if visiting.contains (.map id) then "[...]"
    else
      match h.entries id with
      | [] => "[:]"
      | entries =>
        let inner := textWithin h fuel (.map id :: visiting)
        "[" ++ ", ".intercalate (entries.map fun (k, v) => inner k ++ ": " ++ inner v) ++ "]"

/-- How a value is shown. -/
def text (h : Heap) (v : Value) : String := h.textWithin (h.size + 1) [] v

/-- How a value is shown for inspection. -/
def inspect (h : Heap) (v : Value) : String :=
  match v with
  | .number x => "Number(" ++ Layout.inspection.text x ++ ")"
  | .bool b => "Bool(" ++ boolText b ++ ")"
  | .unit => "Unit"
  | .list _ => "List(" ++ h.text v ++ ")"
  | .map _ => "Map(" ++ h.text v ++ ")"
  | .function f => "Closure(" ++ functionText f.function ++ ")"

end Heap

end Formwork
