import Formwork.Eval.Error
import Formwork.Value.Equality
import Formwork.Value.Text

/-!
# Actions

An action reads and changes the collections, may print, and may fail. What it did before it failed
stays done.
-/

namespace Formwork

/-- What actions work on. -/
structure World where
  /-- The collections. -/
  heap : Heap
  /-- The texts printed so far. -/
  printed : Array String
deriving Inhabited

/-- A computation over the collections. -/
abbrev Action := EStateM EvalError World

namespace Action

/-- A new list. -/
def newList (items : Array Value) : Action Value := fun ⟨heap, printed⟩ =>
  let (v, heap) := heap.newList items
  .ok v ⟨heap, printed⟩

/-- A new map. -/
def newMap (entries : Entries) : Action Value := fun ⟨heap, printed⟩ =>
  let (v, heap) := heap.newMap entries
  .ok v ⟨heap, printed⟩

/-- A new function value. -/
def newFunction (function : FunctionDef) (scope : ScopeId) : Action Value :=
  fun ⟨heap, printed⟩ =>
    let (v, heap) := heap.newFunction function scope
    .ok v ⟨heap, printed⟩

/-- The items of a list. -/
def items (id : Nat) : Action (Array Value) := fun w => .ok (w.heap.items id) w

/-- The entries of a map. -/
def entries (id : Nat) : Action Entries := fun w => .ok (w.heap.entries id) w

/-- Changes the collections. -/
def change (f : Heap → Heap) : Action Unit := fun ⟨heap, printed⟩ => .ok () ⟨f heap, printed⟩

/-- An answer that comes unless a comparison goes on forever. -/
def unlessEndless : Option α → Except EvalError α
  | some a => .ok a
  | none => .error .endlessComparison

/-- An answer that comes unless a comparison goes on forever or is broken off. -/
def unlessHalted : Except Halt α → Except EvalError α
  | .ok a => .ok a
  | .error .endless => .error .endlessComparison
  | .error .locked => .error .lockedMap

/-- An answer about the collections, if there is one. -/
def answer (question : Heap → Except EvalError α) : Action α := fun w =>
  match question w.heap with
  | .ok a => .ok a w
  | .error e => .error e w

/-- Whether two values are equal. -/
def equal (a b : Value) : Action Bool := answer fun h => unlessEndless (h.equal? a b)

/-- The value of a key among entries. -/
def lookup (key : Value) (entries : Entries) : Action (Option Value) :=
  answer fun h => unlessEndless (h.lookup? key entries)

/-- The entries where a key has a value. -/
def insert (key value : Value) (entries : Entries) : Action Entries :=
  answer fun h => unlessEndless (h.insert? key value entries)

/-- The entries where a key has a value, if they are those of a map that is locked meanwhile. -/
def insertLocked (locked : Nat) (key value : Value) (entries : Entries) : Action Entries :=
  answer fun h => unlessHalted (h.insertLocked locked key value entries)

/-- How a value is shown. -/
def text (v : Value) : Action String := fun w => .ok (w.heap.text v) w

/-- Prints a text. -/
def print (text : String) : Action Unit := fun ⟨heap, printed⟩ => .ok () ⟨heap, printed.push text⟩

/-- Fails because values are of the wrong kind or number. -/
def mismatch (cause : Mismatch) : Action α := throw (.typeMismatch cause)

/-- The number that a value is. -/
def number (v : Value) : Action Float := MonadExcept.ofExcept v.number?

end Action

end Formwork
