import Formwork.Eval.World

/-!
# Builtin functions

A registry gives names to functions that programs can call without defining them. Hosts put in their
own; one name stands for one function.
-/

namespace Formwork

/-- A function that is not written in the language. It is given its arguments in order. -/
abbrev Builtin := List Value → Action Value

/-- Builtin functions by name. -/
structure Registry where
  /-- The functions in increasing order of their names. -/
  entries : List (String × Builtin)

namespace Registry

/-- No builtin functions. -/
def empty : Registry := ⟨[]⟩

/-- Functions in increasing order of their names, with one put in its place. -/
def put (name : String) (builtin : Builtin) : List (String × Builtin) → List (String × Builtin)
  | [] => [(name, builtin)]
  | (other, b) :: rest =>
    if name < other then (name, builtin) :: (other, b) :: rest
    else if name = other then (name, builtin) :: rest
    else (other, b) :: put name builtin rest

/-- The registry where a name stands for a function, whatever it stood for before. -/
def register (r : Registry) (name : String) (builtin : Builtin) : Registry :=
  ⟨put name builtin r.entries⟩

/-- The function of a name. -/
def find? (r : Registry) (name : String) : Option Builtin := r.entries.lookup name

@[simp]
theorem find?_register (r : Registry) (name : String) (builtin : Builtin) :
    (r.register name builtin).find? name = some builtin := by
  unfold register find?
  generalize r.entries = entries
  induction entries with
  | nil => simp [put]
  | cons entry rest ih =>
    obtain ⟨other, b⟩ := entry
    unfold put
    split
    · simp
    · split
      · simp
      · rename_i h
        simpa [List.lookup_cons, beq_eq_false_iff_ne.2 h] using ih

/-- The names in increasing order. -/
def names (r : Registry) : List String := r.entries.map (·.1)

/-- How a registry is shown for inspection. -/
def inspect (r : Registry) : String :=
  let quoted := r.names.map fun name => "\"" ++ name ++ "\""
  "BuiltinRegistry \x7b functions: [" ++ ", ".intercalate quoted ++ "] \x7d"

/-- The number of functions. -/
def size (r : Registry) : Nat := r.entries.length

end Registry

end Formwork
