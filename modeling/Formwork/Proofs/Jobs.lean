import Formwork.Proofs.Frames

/-!
# Jobs and single steps

What an evaluator can be asked to run is a job, which is given scopes and values. In the middle of a
job the state of the machine changes by single moves. States of the machine come about by jobs and
moves; which of them are allowed depends on what is to be said about such states.
-/

namespace Formwork

/-- What an evaluator can be asked to run. -/
inductive Job where
  | evaluate (e : Expr) (scope : ScopeId)
  | execute (s : Stmt) (scope : ScopeId)
  | executeBlock (b : Block) (scope : ScopeId)
  | call (f : FunctionDef) (captured : ScopeId) (args : List Value)
  | callNamed (f : FunctionDef) (captured : ScopeId) (bindings : List (String × Value))
  | defineGlobals

namespace Job

/-- Runs a job; what only gives a value ends normally. -/
def run (context : Context) : Job → Eval Flow
  | .evaluate e scope => do return .normal (← context.evaluate e scope)
  | .execute s scope => context.execute s scope
  | .executeBlock b scope => context.executeBlock b scope
  | .call f captured args => do return .normal (← context.call f captured args)
  | .callNamed f captured bindings => do return .normal (← context.callNamed f captured bindings)
  | .defineGlobals => do
    context.defineGlobals
    return .normal .unit

/-- The scopes that a job is given: where it is run, or where the function called was made. -/
def scopes : Job → List ScopeId
  | .evaluate _ scope | .execute _ scope | .executeBlock _ scope => [scope]
  | .call _ captured _ | .callNamed _ captured _ => [captured]
  | .defineGlobals => []

/-- The values that a job is given. -/
def values : Job → List Value
  | .call _ _ args => args
  | .callNamed _ _ bindings => bindings.map (·.2)
  | _ => []

end Job

namespace Machine

/-- A single step in the middle of a run. All values that it puts somewhere are proper. -/
inductive Move (proper : Machine → Value → Prop) : Machine → Machine → Prop
  | count (m : Machine) : Move proper m m.counted
  | enter (m : Machine) : Move proper m m.entered
  | leave (m : Machine) : Move proper m m.left
  | child {m : Machine} {parent : ScopeId} (here : m.Allocated parent) :
      Move proper m { m with scopes := (m.scopes.child parent).2 }
  | bind {m : Machine} (scope : ScopeId) (name : String) {binding : Binding}
      (given : ∀ v constant, binding = .value v constant → proper m v) :
      Move proper m { m with scopes := m.scopes.bind scope name binding }
  | newList {m : Machine} {items : Array Value} (given : ∀ v ∈ items.toList, proper m v) :
      Move proper m { m with world := ⟨(m.world.heap.newList items).2, m.world.printed⟩ }
  | newMap {m : Machine} {entries : Entries}
      (given : ∀ entry ∈ entries, proper m entry.1 ∧ proper m entry.2) :
      Move proper m { m with world := ⟨(m.world.heap.newMap entries).2, m.world.printed⟩ }
  | newFunction {m : Machine} (definition : FunctionDef) (scope : ScopeId) :
      Move proper m
        { m with world := ⟨(m.world.heap.newFunction definition scope).2, m.world.printed⟩ }
  | pushItem {m : Machine} (id : Nat) {v : Value} (given : proper m v) :
      Move proper m { m with world := ⟨m.world.heap.pushItem id v, m.world.printed⟩ }
  | setItem {m : Machine} (id index : Nat) {v : Value} (given : proper m v) :
      Move proper m { m with world := ⟨m.world.heap.setItem id index v, m.world.printed⟩ }
  | setEntries {m : Machine} (id : Nat) {entries : Entries}
      (given : ∀ entry ∈ entries, proper m entry.1 ∧ proper m entry.2) :
      Move proper m { m with world := ⟨m.world.heap.setEntries id entries, m.world.printed⟩ }
  | print (m : Machine) (line : String) :
      Move proper m { m with world := ⟨m.world.heap, m.world.printed.push line⟩ }

namespace Move

variable {proper proper' : Machine → Value → Prop} {m n : Machine}

theorem mono (weaker : ∀ v, proper m v → proper' m v) (move : Move proper m n) :
    Move proper' m n := by
  cases move with
  | count => exact .count m
  | enter => exact .enter m
  | leave => exact .leave m
  | child here => exact .child here
  | bind scope name given =>
      exact .bind scope name fun v constant same => weaker v (given v constant same)
  | newList given => exact .newList fun v mem => weaker v (given v mem)
  | newMap given => exact .newMap fun entry mem => (given entry mem).imp (weaker _) (weaker _)
  | newFunction definition scope => exact .newFunction definition scope
  | pushItem id given => exact .pushItem id (weaker _ given)
  | setItem id index given => exact .setItem id index (weaker _ given)
  | setEntries id given =>
      exact .setEntries id fun entry mem => (given entry mem).imp (weaker _) (weaker _)
  | print line => exact .print m line

/-- A call that has been entered counts for how deep calls were ever nested. -/
theorem deepest_le (move : Move proper m n) :
    m.meter.deepest ≤ n.meter.deepest ∧ n.meter.budget = m.meter.budget := by
  cases move with
  | enter => exact ⟨Nat.le_max_left _ _, rfl⟩
  | _ => exact ⟨Nat.le_refl _, rfl⟩

theorem depth_le_deepest (move : Move proper m n) (bound : m.meter.depth ≤ m.meter.deepest) :
    n.meter.depth ≤ n.meter.deepest := by
  cases move with
  | enter => exact Nat.le_max_right _ _
  | leave => exact Nat.le_trans (Nat.sub_le _ _) bound
  | _ => exact bound

end Move

end Machine

end Formwork
