import Formwork.Eval.Budget
import Formwork.Eval.Registry
import Formwork.Eval.Scopes

/-!
# The machine

The state of a running program, and the single steps that running it is made of.
-/

namespace Formwork

/-- The state of a running program. -/
structure Machine where
  /-- The collections and what was printed. -/
  world : World
  /-- The scopes. -/
  scopes : Scopes
  /-- What has been used of the budget. -/
  meter : Meter

/-- A computation of a running program. What it did before it failed stays done. -/
abbrev Eval := EStateM EvalError Machine

namespace Eval

/-- An action on the collections. -/
def act (action : Action α) : Eval α := fun ⟨world, scopes, meter⟩ =>
  match action world with
  | .ok a world => .ok a ⟨world, scopes, meter⟩
  | .error e world => .error e ⟨world, scopes, meter⟩

/-- Counts one instruction. -/
def tick : Eval Unit := fun ⟨world, scopes, meter⟩ =>
  match meter.tick with
  | (none, meter) => .ok () ⟨world, scopes, meter⟩
  | (some e, meter) => .error e ⟨world, scopes, meter⟩

/-- Fails because no instructions are left. -/
def exhausted : Eval α := fun m =>
  let limit := m.meter.budget.maxInstructions
  .error (.resourceExceeded .instructions limit (limit + 1)) m

/-- More rounds than can be made when each costs an instruction. -/
def rounds : Eval Nat := fun m => .ok (m.meter.remaining + 1) m

/-- Runs a computation one call deeper; the call is left also when it fails. -/
def inCall (body : Eval α) : Eval α := fun ⟨world, scopes, meter⟩ =>
  match meter.enter with
  | (some e, meter) => .error e ⟨world, scopes, meter⟩
  | (none, meter) =>
    match body ⟨world, scopes, meter⟩ with
    | .ok a ⟨world, scopes, meter⟩ => .ok a ⟨world, scopes, meter.exit⟩
    | .error e ⟨world, scopes, meter⟩ => .error e ⟨world, scopes, meter.exit⟩

/-- A new scope nested in another one. -/
def child (parent : ScopeId) : Eval ScopeId := fun ⟨world, scopes, meter⟩ =>
  let (scope, scopes) := scopes.child parent
  .ok scope ⟨world, scopes, meter⟩

/-- Defines a variable or constant. -/
def define (scope : ScopeId) (name : String) (value : Value) (constant : Bool) : Eval Unit :=
  fun ⟨world, scopes, meter⟩ => .ok () ⟨world, scopes.define scope name value constant, meter⟩

/-- Defines a function. -/
def defineFunction (scope : ScopeId) (definition : FunctionDef) : Eval Unit :=
  fun ⟨world, scopes, meter⟩ => .ok () ⟨world, scopes.defineFunction scope definition, meter⟩

/-- How it is reported that a variable cannot be given another value. -/
def assignError (name : String) : AssignError → EvalError
  | .undefined => .nameNotFound name
  | .constant => .unsupported (.assignConstant name)

/-- Gives a variable another value. -/
def assign (scope : ScopeId) (name : String) (value : Value) : Eval Unit :=
  fun ⟨world, scopes, meter⟩ =>
    match scopes.assign scope name value with
    | (none, scopes) => .ok () ⟨world, scopes, meter⟩
    | (some e, scopes) => .error (assignError name e) ⟨world, scopes, meter⟩

/-- What a name stands for. -/
def meaning (scope : ScopeId) (name : String) : Eval (Option Meaning) := fun m =>
  .ok (m.scopes.lookup? scope name) m

/-- A new function value. -/
def newFunction (definition : FunctionDef) (scope : ScopeId) : Eval Value :=
  act (Action.newFunction definition scope)

end Eval

end Formwork
